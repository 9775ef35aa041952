import Beryl.Machinery.Ring
import Mathlib.Data.List.Induction
import Mathlib.Data.List.Nodup
import Mathlib.Data.List.Perm.Basic

/-!
# Stream/Channel — the bounded channel is a queue

A fixed channel is a ring of optional slots under a lock.  A call takes the lock once (`try_send`,
`try_receive`) or turn after turn and waits in between (`send_timeout`, `receive_timeout`).  Between
two turns of a call others take theirs, and each may find the deadline passed.  A `Session` keeps
the sends that have not returned and a log of the answers.

A `Queue` is what the channel stands for: a list of items and two open ends, and `Queue.Answers` is
what it answers, one call at a time.  **However the calls are interleaved, the log is a history of
the queue** (`channel_linearizable`): the turn with which a call returns is the moment it takes
effect.
-/

namespace Beryl.Stream

open List

variable {T : Type} {capacity : ℕ}

/-! ## The channel -/

/-- `SendError`: every failure hands the message back. -/
inductive SendError (T : Type)
  | full (message : T)
  | timeout (message : T)
  | closed (message : T)

/-- The message a failed send hands back. -/
def SendError.message : SendError T → T
  | full message | timeout message | closed message => message

/-- `ReceiveError`; `panicked` stands for the failed `expect` of `take_head`. -/
inductive ReceiveError
  | empty | closed | panicked

/-- What a turn of a send answers, if the call does not go on waiting. -/
abbrev Sent (T : Type) := Option (Except (SendError T) Unit)

/-- What a turn of a receive answers, if the call does not go on waiting. -/
abbrev Received (T : Type) := Option (Except ReceiveError (Option T))

/-- `ChannelState`, without its diagnostic counters. -/
structure ChannelState (T : Type) where
  slots : List (Option T)
  head : ℕ
  tail : ℕ
  len : ℕ
  senderOpen : Bool
  receiverOpen : Bool

/-- `fixed_channel`. -/
def fixedChannel (capacity : ℕ) : ChannelState T :=
  ⟨List.replicate capacity none, 0, 0, 0, true, true⟩

/-- What both sends do where there is room. -/
def ChannelState.push (state : ChannelState T) (capacity : ℕ) (message : T) : ChannelState T :=
  { state with
    slots := state.slots.set state.tail (some message)
    tail := (state.tail + 1) % capacity
    len := state.len + 1 }

/-- `try_send`. -/
def trySend (capacity : ℕ) (message : T) (state : ChannelState T) : Sent T × ChannelState T :=
  if state.receiverOpen = false then (some (.error (.closed message)), state)
  else if state.len = capacity then (some (.error (.full message)), state)
  else (some (.ok ()), state.push capacity message)

/-- A turn of the loop of `send_timeout`; a deadline that cannot be computed counts as passed. -/
def sendTurn (capacity : ℕ) (expired : Bool) (message : T) (state : ChannelState T) :
    Sent T × ChannelState T :=
  if state.receiverOpen = false then (some (.error (.closed message)), state)
  else if state.len < capacity then (some (.ok ()), state.push capacity message)
  else if expired then (some (.error (.timeout message)), state)
  else (none, state)

/-- `take_head`. -/
def takeHead (capacity : ℕ) (state : ChannelState T) : Received T × ChannelState T :=
  match state.slots[state.head]? with
  | some (some message) => (some (.ok (some message)),
    { state with
      slots := state.slots.set state.head none
      head := (state.head + 1) % capacity
      len := state.len - 1 })
  | _ => (some (.error .panicked), state)

/-- `try_receive`. -/
def tryReceive (capacity : ℕ) (state : ChannelState T) : Received T × ChannelState T :=
  if state.len = 0 then
    if state.senderOpen then (some (.error .empty), state) else (some (.error .closed), state)
  else takeHead capacity state

/-- A turn of the loop of `receive_timeout`. -/
def receiveTurn (capacity : ℕ) (expired : Bool) (state : ChannelState T) :
    Received T × ChannelState T :=
  if 0 < state.len then takeHead capacity state
  else if state.senderOpen = false then (some (.error .closed), state)
  else if expired then (some (.ok none), state)
  else (none, state)

/-! ## The queue -/

/-- The answer of a call that has returned, or the drop of one side. -/
inductive Event (T : Type)
  | sent (message : T) (result : Except (SendError T) Unit)
  | received (result : Except ReceiveError (Option T))
  | senderDropped | receiverDropped

/-- A queue: its items, and which of its ends are open. -/
structure Queue (T : Type) where
  items : List T
  senderOpen : Bool
  receiverOpen : Bool

/-- **What a bounded queue answers**, and what it is afterwards. -/
inductive Queue.Answers (capacity : ℕ) (queue : Queue T) : Event T → Queue T → Prop
  | accept {message} (listens : queue.receiverOpen = true) (room : queue.items.length < capacity) :
    queue.Answers capacity (.sent message (.ok ())) { queue with items := queue.items ++ [message] }
  | full {message} (listens : queue.receiverOpen = true) (full : queue.items.length = capacity) :
    queue.Answers capacity (.sent message (.error (.full message))) queue
  | timeout {message} (listens : queue.receiverOpen = true) (full : queue.items.length = capacity) :
    queue.Answers capacity (.sent message (.error (.timeout message))) queue
  | refuse {message} (dropped : queue.receiverOpen = false) :
    queue.Answers capacity (.sent message (.error (.closed message))) queue
  | deliver {message rest} (items : queue.items = message :: rest) :
    queue.Answers capacity (.received (.ok (some message))) { queue with items := rest }
  | empty (talks : queue.senderOpen = true) (nothing : queue.items = []) :
    queue.Answers capacity (.received (.error .empty)) queue
  | expire (talks : queue.senderOpen = true) (nothing : queue.items = []) :
    queue.Answers capacity (.received (.ok none)) queue
  | close (dropped : queue.senderOpen = false) (nothing : queue.items = []) :
    queue.Answers capacity (.received (.error .closed)) queue
  | dropSender : queue.Answers capacity .senderDropped { queue with senderOpen := false }
  | dropReceiver : queue.Answers capacity .receiverDropped { queue with receiverOpen := false }

/-- **A history of a queue** that starts empty and with both ends open. -/
inductive Legal (capacity : ℕ) : List (Event T) → Queue T → Prop
  | nil : Legal capacity [] ⟨[], true, true⟩
  | snoc {log queue event next} (before : Legal capacity log queue)
    (answers : queue.Answers capacity event next) : Legal capacity (log ++ [event]) next

variable {queue next : Queue T} {event : Event T} {log : List (Event T)}

/-- The items whose send reported success. -/
def accepted (log : List (Event T)) : List T := log.filterMap fun
  | .sent message (.ok _) => some message
  | _ => none

/-- The items whose send failed. -/
def refused (log : List (Event T)) : List T := log.filterMap fun
  | .sent message (.error _) => some message
  | _ => none

/-- The items received. -/
def received (log : List (Event T)) : List T := log.filterMap fun
  | .received (.ok item) => item
  | _ => none

@[simp] theorem accepted_append (log log' : List (Event T)) :
    accepted (log ++ log') = accepted log ++ accepted log' := filterMap_append

@[simp] theorem refused_append (log log' : List (Event T)) :
    refused (log ++ log') = refused log ++ refused log' := filterMap_append

@[simp] theorem received_append (log log' : List (Event T)) :
    received (log ++ log') = received log ++ received log' := filterMap_append

/-- An answer takes its item in at the end of the queue, or out at its front. -/
theorem Queue.Answers.items (h : queue.Answers capacity event next) :
    queue.items ++ accepted [event] = received [event] ++ next.items := by
  cases h <;> simp_all [accepted, received]

namespace Legal

/-- **The queue holds what was accepted and not yet received.** -/
theorem items (h : Legal capacity log queue) : accepted log = received log ++ queue.items := by
  induction h with
  | nil => rfl
  | snoc _ answers ih => simp [ih, answers.items]

/-- **An end is open as long as it has not been dropped.** -/
theorem ends (h : Legal capacity log queue) : (queue.senderOpen = true ↔ Event.senderDropped ∉ log)
    ∧ (queue.receiverOpen = true ↔ Event.receiverDropped ∉ log) := by
  induction h with
  | nil => simp
  | snoc _ answers ih => cases answers <;> simp_all

/-- A failed send hands its own message back. -/
theorem hands_back (h : Legal capacity log queue) {message : T} {e : SendError T}
    (hmem : Event.sent message (.error e) ∈ log) : e.message = message := by
  induction h with
  | nil => cases hmem
  | snoc _ answers ih =>
    rcases mem_append.mp hmem with hmem | hmem
    · exact ih hmem
    · cases mem_singleton.mp hmem
      cases answers <;> rfl

/-- **Closure is reported last**: the sender is gone and nothing is left to receive. -/
theorem closes (h : Legal capacity log queue) {front rest : List (Event T)}
    (hlog : log = front ++ .received (.error .closed) :: rest) :
    Event.senderDropped ∈ front ∧ received front = accepted front := by
  induction h generalizing rest with
  | nil => simp at hlog
  | snoc before answers ih =>
    rcases eq_nil_or_concat' rest with rfl | ⟨rest, last, rfl⟩
    · obtain ⟨rfl, hlast⟩ := append_inj' hlog rfl
      cases singleton_inj.mp hlast
      cases answers with
      | close dropped nothing =>
        exact ⟨by simpa [dropped] using before.ends.1, by simpa [nothing] using before.items.symm⟩
    · rw [← cons_append, ← append_assoc] at hlog
      exact ih (append_inj' hlog rfl).1

end Legal

/-! ## Sessions -/

/-- The channel, the messages of the sends that have not returned, and the log. -/
structure Session (T : Type) where
  channel : ChannelState T
  waiting : List T
  log : List (Event T)

variable {state : ChannelState T} {session : Session T} {calls : List T} {message : T}
  {expired : Bool}

/-- A send begins. -/
def Session.call (session : Session T) (message : T) : Session T :=
  { session with waiting := session.waiting ++ [message] }

/-- A send that has begun takes a turn. -/
def Session.send (session : Session T) (index : ℕ)
    (turn : T → ChannelState T → Sent T × ChannelState T) : Session T :=
  match session.waiting[index]? with
  | none => session
  | some message =>
    match turn message session.channel with
    | (none, channel) => { session with channel }
    | (some result, channel) =>
      ⟨channel, session.waiting.eraseIdx index, session.log ++ [.sent message result]⟩

/-- A receive takes a turn. -/
def Session.receive (session : Session T) : Received T × ChannelState T → Session T
  | (none, channel) => { session with channel }
  | (some result, channel) => { session with channel, log := session.log ++ [.received result] }

/-- What can happen next: a call, a turn of a call, or the drop of one side. -/
inductive Action (T : Type)
  | trySend (message : T)
  | sendTimeout (message : T)
  | sendTurn (index : ℕ) (expired : Bool)
  | tryReceive
  | receiveTurn (expired : Bool)
  | dropSender | dropReceiver

/-- One step of a session. -/
def Session.step (capacity : ℕ) (session : Session T) : Action T → Session T
  | .trySend message => (session.call message).send session.waiting.length (Stream.trySend capacity)
  | .sendTimeout message => session.call message
  | .sendTurn index expired => session.send index (Stream.sendTurn capacity expired)
  | .tryReceive => session.receive (Stream.tryReceive capacity session.channel)
  | .receiveTurn expired => session.receive (Stream.receiveTurn capacity expired session.channel)
  | .dropSender => ⟨{ session.channel with senderOpen := false }, session.waiting,
    session.log ++ [.senderDropped]⟩
  | .dropReceiver => ⟨{ session.channel with receiverOpen := false }, session.waiting,
    session.log ++ [.receiverDropped]⟩

/-- A whole session on a new channel. -/
def runSession (capacity : ℕ) (actions : List (Action T)) : Session T :=
  actions.foldl (Session.step capacity) ⟨fixedChannel capacity, [], []⟩

/-- The messages of the sends of a session. -/
def sends (actions : List (Action T)) : List T := actions.filterMap fun
  | .trySend message | .sendTimeout message => some message
  | _ => none

/-- **A bounded queue, as its callers see it.**  `accounted` counts every send as one item that has
been accepted or refused or still waits; `delivers` and `admits` say that no call waits or fails
without a cause. -/
structure Linearizable (capacity : ℕ) (calls : List T) (session : Session T) : Prop where
  history : ∃ queue, Legal capacity session.log queue
  fifo : received session.log <+: accepted session.log
  accounted : (accepted session.log ++ refused session.log ++ session.waiting).Perm calls
  handsBack : ∀ message e, .sent message (.error e) ∈ session.log → e.message = message
  apart : calls.Nodup → ∀ message ∈ refused session.log, message ∉ received session.log
  bounded : session.channel.len ≤ capacity
  held : (received session.log).length + session.channel.len = (accepted session.log).length
  closes : ∀ front rest, session.log = front ++ .received (.error .closed) :: rest →
    Event.senderDropped ∈ front ∧ received front = accepted front
  delivers : ∀ message rest, accepted session.log = received session.log ++ message :: rest →
    (tryReceive capacity session.channel).1 = some (.ok (some message))
      ∧ ∀ expired, (receiveTurn capacity expired session.channel).1 = some (.ok (some message))
  admits : Event.receiverDropped ∉ session.log →
    (accepted session.log).length < (received session.log).length + capacity → ∀ message,
      (trySend capacity message session.channel).1 = some (.ok ())
        ∧ ∀ expired, (sendTurn capacity expired message session.channel).1 = some (.ok ())

/-! ## Turns -/

/-- The channel holds the items of a queue, from its head to its tail, and its ends are as open. -/
structure ChannelState.Holds (state : ChannelState T) (capacity : ℕ) (queue : Queue T) : Prop where
  ring : Ring.Holds capacity state.head state.slots queue.items
  tail : state.tail = (state.head + queue.items.length) % capacity
  len : state.len = queue.items.length
  sender : state.senderOpen = queue.senderOpen
  receiver : state.receiverOpen = queue.receiverOpen

namespace ChannelState.Holds

theorem len_le (h : state.Holds capacity queue) : state.len ≤ capacity := h.len ▸ h.ring.length_le

theorem listens (h : state.Holds capacity queue) (hclosed : ¬ state.receiverOpen = false) :
    queue.receiverOpen = true := h.receiver.symm.trans (Bool.eq_true_of_not_eq_false hclosed)

theorem push (h : state.Holds capacity queue) (hroom : state.len < capacity) :
    (state.push capacity message).Holds capacity
      { queue with items := queue.items ++ [message] } where
  ring := by simpa [ChannelState.push, h.tail] using h.ring.push (h.len ▸ hroom) message
  tail := by simp [ChannelState.push, h.tail, add_assoc]
  len := by simp [ChannelState.push, h.len]
  sender := h.sender
  receiver := h.receiver

theorem exists_takeHead {rest : List T} (h : state.Holds capacity queue)
    (hitems : queue.items = message :: rest) :
    ∃ after, takeHead capacity state = (some (.ok (some message)), after)
      ∧ after.Holds capacity { queue with items := rest } := by
  obtain ⟨hring, htail, hlen, hsender, hreceiver⟩ := h
  rw [hitems] at hring htail hlen
  obtain ⟨hslot, hring⟩ := hring.pop
  refine ⟨_, by rw [takeHead, hslot], hring, ?_, by simp [hlen], ?_, ?_⟩
  · simp [htail, add_assoc, add_comm 1]
  · exact hsender
  · exact hreceiver

theorem items_eq_nil (h : state.Holds capacity queue) (hlen : state.len = 0) : queue.items = [] :=
  length_eq_zero_iff.mp (h.len.symm.trans hlen)

end ChannelState.Holds

/-- **A turn answers as the queue does**, or the call goes on waiting and nothing has changed. -/
def Simulates {R : Type} (capacity : ℕ) (queue : Queue T) (event : R → Event T) :
    Option R × ChannelState T → Prop
  | (none, after) => after.Holds capacity queue
  | (some result, after) =>
    ∃ next, queue.Answers capacity (event result) next ∧ after.Holds capacity next

section

variable (h : state.Holds capacity queue)
include h

theorem simulates_trySend :
    Simulates capacity queue (.sent message) (trySend capacity message state) := by
  unfold trySend
  split_ifs with hclosed hfull
  · exact ⟨_, .refuse (h.receiver.symm.trans hclosed), h⟩
  · exact ⟨_, .full (h.listens hclosed) (h.len.symm.trans hfull), h⟩
  · have hroom := Nat.lt_of_le_of_ne h.len_le hfull
    exact ⟨_, .accept (h.listens hclosed) (h.len ▸ hroom), h.push hroom⟩

theorem simulates_sendTurn :
    Simulates capacity queue (.sent message) (sendTurn capacity expired message state) := by
  unfold sendTurn
  split_ifs with hclosed hroom
  · exact ⟨_, .refuse (h.receiver.symm.trans hclosed), h⟩
  · exact ⟨_, .accept (h.listens hclosed) (h.len ▸ hroom), h.push hroom⟩
  · have hfull : state.len = capacity := Nat.le_antisymm h.len_le (Nat.le_of_not_lt hroom)
    exact ⟨_, .timeout (h.listens hclosed) (h.len.symm.trans hfull), h⟩
  · exact h

theorem simulates_takeHead (hlen : state.len ≠ 0) :
    Simulates capacity queue .received (takeHead capacity state) := by
  cases hitems : queue.items with
  | nil => exact absurd (h.len.trans (congrArg length hitems)) hlen
  | cons message rest =>
    obtain ⟨after, heq, hafter⟩ := h.exists_takeHead hitems
    rw [heq]
    exact ⟨_, .deliver hitems, hafter⟩

theorem simulates_tryReceive : Simulates capacity queue .received (tryReceive capacity state) := by
  unfold tryReceive
  split_ifs with hlen hopen
  · exact ⟨_, .empty (h.sender.symm.trans hopen) (h.items_eq_nil hlen), h⟩
  · have hdropped := h.sender.symm.trans (Bool.eq_false_of_not_eq_true hopen)
    exact ⟨_, .close hdropped (h.items_eq_nil hlen), h⟩
  · exact simulates_takeHead h hlen

theorem simulates_receiveTurn :
    Simulates capacity queue .received (receiveTurn capacity expired state) := by
  unfold receiveTurn
  split_ifs with hlen hdropped
  · exact simulates_takeHead h hlen.ne'
  · exact ⟨_, .close (h.sender.symm.trans hdropped) (h.items_eq_nil (Nat.eq_zero_of_not_pos hlen)),
      h⟩
  · have hopen := h.sender.symm.trans (Bool.eq_true_of_not_eq_false hdropped)
    exact ⟨_, .expire hopen (h.items_eq_nil (Nat.eq_zero_of_not_pos hlen)), h⟩
  · exact h

end

/-! ## Runs -/

/-- **What every step keeps**: the channel stands for the queue that the log leads to. -/
structure Refines (capacity : ℕ) (calls : List T) (session : Session T) (queue : Queue T) :
    Prop where
  channel : session.channel.Holds capacity queue
  log : Legal capacity session.log queue
  accounted : (accepted session.log ++ refused session.log ++ session.waiting).Perm calls

section

variable (h : Refines capacity calls session queue)
include h

/-- An event: the queue answers it, and what no longer waits is accepted or refused. -/
theorem Refines.snoc {after : ChannelState T} {waiting : List T}
    (hafter : after.Holds capacity next)
    (hanswers : queue.Answers capacity event next)
    (hwaiting : (accepted [event] ++ refused [event] ++ waiting).Perm session.waiting) :
    Refines capacity calls ⟨after, waiting, session.log ++ [event]⟩ next := by
  refine ⟨hafter, h.log.snoc hanswers, .trans ?_ ((hwaiting.append_left _).trans h.accounted)⟩
  simp only [accepted_append, refused_append, append_assoc]
  exact (perm_append_comm_assoc ..).append_left _

theorem Refines.call : Refines capacity (calls ++ [message]) (session.call message) queue :=
  ⟨h.channel, h.log, by simpa [Session.call] using h.accounted.append_right [message]⟩

theorem Refines.send {index : ℕ} {turn : T → ChannelState T → Sent T × ChannelState T}
    (hturn : ∀ message, Simulates capacity queue (.sent message) (turn message session.channel)) :
    ∃ queue, Refines capacity calls (session.send index turn) queue := by
  unfold Session.send
  cases hwait : session.waiting[index]? with
  | none => exact ⟨queue, h⟩
  | some message =>
    obtain ⟨hlt, hget⟩ := List.getElem?_eq_some_iff.mp hwait
    have hperm : (message :: session.waiting.eraseIdx index).Perm session.waiting :=
      hget ▸ getElem_cons_eraseIdx_perm hlt
    have hsim := hturn message
    dsimp only
    generalize turn message session.channel = answer at hsim ⊢
    rcases answer with ⟨_ | _ | _, after⟩
    · exact ⟨queue, hsim, h.log, h.accounted⟩
    all_goals
      obtain ⟨next, hanswers, hafter⟩ := hsim
      exact ⟨next, h.snoc hafter hanswers hperm⟩

theorem Refines.receive {turn : Received T × ChannelState T}
    (hturn : Simulates capacity queue .received turn) :
    ∃ queue, Refines capacity calls (session.receive turn) queue := by
  rcases turn with ⟨_ | result, after⟩
  · exact ⟨queue, hturn, h.log, h.accounted⟩
  · obtain ⟨next, hanswers, hafter⟩ := hturn
    exact ⟨next, h.snoc hafter hanswers (.refl _)⟩

theorem Refines.step (action : Action T) :
    ∃ queue, Refines capacity (calls ++ sends [action]) (session.step capacity action) queue := by
  have h' : Refines capacity (calls ++ []) session queue := by rwa [append_nil]
  cases action with
  | trySend message => exact h.call.send fun _ => simulates_trySend h.channel
  | sendTimeout message => exact ⟨queue, h.call⟩
  | sendTurn index expired => exact h'.send fun _ => simulates_sendTurn h.channel
  | tryReceive => exact h'.receive (simulates_tryReceive h.channel)
  | receiveTurn expired => exact h'.receive (simulates_receiveTurn h.channel)
  | dropSender =>
    obtain ⟨hring, htail, hlen, -, hreceiver⟩ := h.channel
    exact ⟨{ queue with senderOpen := false },
      h'.snoc ⟨hring, htail, hlen, rfl, hreceiver⟩ .dropSender (.refl _)⟩
  | dropReceiver =>
    obtain ⟨hring, htail, hlen, hsender, -⟩ := h.channel
    exact ⟨{ queue with receiverOpen := false },
      h'.snoc ⟨hring, htail, hlen, hsender, rfl⟩ .dropReceiver (.refl _)⟩

end

theorem exists_refines (hcap : 0 < capacity) (actions : List (Action T)) :
    ∃ queue, Refines capacity (sends actions) (runSession capacity actions) queue := by
  induction actions using List.reverseRecOn with
  | nil => exact ⟨⟨[], true, true⟩, ⟨Ring.holds_nil hcap, rfl, rfl, rfl, rfl⟩, .nil, .refl _⟩
  | append_singleton actions action ih =>
    obtain ⟨queue, h⟩ := ih
    rw [runSession, foldl_append, sends, filterMap_append]
    exact h.step action

/-- **However its calls are interleaved, the channel is a bounded queue.** -/
theorem channel_linearizable (hcapacity : 0 < capacity) (actions : List (Action T)) :
    Linearizable capacity (sends actions) (runSession capacity actions) := by
  obtain ⟨queue, h⟩ := exists_refines hcapacity actions
  generalize runSession capacity actions = session at h ⊢
  have hitems := h.log.items
  have hlen := h.channel.len
  have hheld : (received session.log).length + session.channel.len
      = (accepted session.log).length := by rw [hitems, length_append, hlen]
  have hfifo : received session.log <+: accepted session.log := ⟨queue.items, hitems.symm⟩
  refine ⟨⟨queue, h.log⟩, hfifo, h.accounted, fun _ _ => h.log.hands_back,
    fun hnodup message hrefused hreceived => ?_, h.channel.len_le, hheld, fun _ _ => h.log.closes,
    fun message rest hrest => ?_, fun hopen hroom message => ?_⟩
  · have hall := (nodup_append.mp (h.accounted.nodup_iff.mpr hnodup)).1
    exact (nodup_append.mp hall).2.2 message (hfifo.subset hreceived) message hrefused rfl
  · have hfirst := append_cancel_left (hitems.symm.trans hrest)
    obtain ⟨after, htake, -⟩ := h.channel.exists_takeHead hfirst
    have hsome : session.channel.len = rest.length + 1 := by rw [hlen, hfirst, length_cons]
    simp [tryReceive, receiveTurn, hsome, htake]
  · have hreceiver : session.channel.receiverOpen = true :=
      h.channel.receiver.trans (h.log.ends.2.mpr hopen)
    have hlt : session.channel.len < capacity := by omega
    simp [trySend, sendTurn, hreceiver, hlt, hlt.ne]

/-- Two slots: the third item goes round the ring, the fourth finds it full until its deadline, and
the receiver hears of the drop of the sender once it has the three. -/
def roundTheRing : List (Action ℕ) :=
  [.trySend 1, .trySend 2, .tryReceive, .sendTimeout 3, .sendTurn 0 false, .sendTimeout 4,
    .sendTurn 0 false, .sendTurn 0 true, .tryReceive, .dropSender, .receiveTurn false,
    .receiveTurn false]

theorem channel_linearizable_round : Linearizable 2 [1, 2, 3, 4] (runSession 2 roundTheRing)
    ∧ (runSession 2 roundTheRing).log = [.sent 1 (.ok ()), .sent 2 (.ok ()),
      .received (.ok (some 1)), .sent 3 (.ok ()), .sent 4 (.error (.timeout 4)),
      .received (.ok (some 2)), .senderDropped, .received (.ok (some 3)),
      .received (.error .closed)] :=
  ⟨channel_linearizable Nat.two_pos roundTheRing, rfl⟩

end Beryl.Stream
