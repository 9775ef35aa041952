import Beryl.Machinery.Excerpt
import Beryl.Projection.Coverage

/-!
# Projection/Preview — what a resource shows of itself

A code or table resource carries a preview: the first lines of its source, up to a byte limit.  The
parser collects it line by line and, for a line that is too long to be carried, fragment by
fragment.  Three things go wrong in rare texts.  A cut before a wide character leaves room for a
later line that begins with a narrow one.  The fragments of a long line are collected even behind
the last line that may be shown.  And a table's header is taken whole, however long it is, so that
the record of the resource refuses it.

`preview_honest` says for which sources none of this happens.
-/

namespace Beryl.Projection

open Text Fallible List
open String (utf8Len utf8Len_le_of_prefix)

/-! ## Storing a resource -/

/-- The most bytes that the preview of a block may have. -/
def previewMaxBytes : MarkdownBlockKind → ℕ
  | .table => markdownTablePreviewMaxBytes
  | _ => markdownCodePreviewMaxBytes

/-- The check of a resource's place in the projection. -/
def resourceReference (kind : MarkdownBlockKind) (preview : Chars) :
    Except SyndicRecordError Chars :=
  if kind ≠ .fencedCode ∧ kind ≠ .table then .error .invalidProjectionResourceKind
  else validateText "projection resource preview" preview (previewMaxBytes kind) true

/-- The check of a resource's own record. -/
def newResourceMetadata (kind : ResourceKind) (range : ProjectionSourceRange)
    (previewRange : Option ProjectionSourceRange) (structureOf : ResourceStructure) :
    Except SyndicRecordError Unit := do
  if let some preview := previewRange then
    ensure (preview.stop ≤ range.len)
      (.invalidResourcePreviewRange range.len preview.start preview.stop)
  match kind, structureOf with
  | .code, .code _ _ => return
  | .table, .table _ _ headerRange =>
      ensure (headerRange.stop ≤ range.len) .invalidResourceStructure
  | _, _ => .error .invalidResourceStructure

/-- The range of a preview within its resource. -/
def previewRange (preview : Chars) : Except SyndicRecordError (Option ProjectionSourceRange) :=
  if preview.isEmpty then .ok none
  else (ProjectionSourceRange.new 0 (utf8Len preview)).map some

/-- The records of a resource that a step has emitted. -/
def materializeResource (kind : MarkdownBlockKind) (range : ProjectionSourceRange)
    (preview : Chars) (structureOf : ResourceStructure) : Except SyndicMutationError Unit := do
  let resourceKind ← match kind with
    | .fencedCode => .ok ResourceKind.code
    | .table => .ok ResourceKind.table
    | _ => .error .projectionBuildConflict
  let preview ← (resourceReference kind preview).mapError .record
  let shown ← (previewRange preview).mapError .record
  (newResourceMetadata resourceKind range shown structureOf).mapError .record

/-! ## Honest previews -/

/-- The text of a range of the source. -/
def sourceText (text : Chars) (range : ProjectionSourceRange) : Chars :=
  takeBytes range.len (dropBytes range.start text)

/-- **A preview is honest**: it begins its resource, within the limits. -/
structure HonestPreview (kind : MarkdownBlockKind) (body preview : Chars) : Prop where
  begins : preview <+: body
  bytes : utf8Len preview ≤ previewMaxBytes kind
  lines : kind = .fencedCode → (segments preview).length ≤ markdownCodePreviewMaxLines

/-- The stretches of code that its preview is collected from: the first lines, and every fragment of
a later line. -/
def previewedCode (lines : Lines) : Lines :=
  (lines.take markdownCodePreviewMaxLines).flatMap
      (fun line => (spilled line).1 ++ [(spilled line).2])
    ++ (lines.drop markdownCodePreviewMaxLines).flatMap fun line => (spilled line).1

/-- The lines of a table that its preview shows: the header, the delimiter row and the first rows.
-/
def previewedTable (lines : Lines) : Lines :=
  lines.take (markdownTablePreviewMaxBodyRows + 2)

/-- **The preview of a source settles**: behind the cut at the limit, nothing more is collected that
would fit into the few bytes it leaves.  The header of a table is within the limit. -/
def PreviewSettles : MarkdownBlockKind → Chars → Prop
  | .table, body =>
    utf8Len ((segments body).headD []) ≤ markdownTablePreviewMaxBytes
      ∧ Settles markdownTablePreviewMaxBytes (previewedTable (segments body)).flatten
        (previewedTable (segments body))
  | _, body =>
    Settles markdownCodePreviewMaxBytes
      ((segments body).take markdownCodePreviewMaxLines).flatten (previewedCode (segments body))

/-! ## Previews as excerpts -/

theorem appendPreview_eq (preview source : Chars) (maximum : ℕ) :
    appendPreview preview source maximum =
      preview ++ takeBytes (maximum - utf8Len preview) source := by
  rw [appendPreview]
  split
  · next h =>
    have hnone : takeBytes 0 source = [] := takeBytes_eq_nil_iff.mpr fun c _ => c.utf8Size_pos
    rw [Nat.sub_eq_zero_of_le h, hnone, append_nil]
  · rw [takeBytes_utf8Prefix]

theorem foldl_appendPreview (maximum : ℕ) (pieces : Lines) (preview : Chars) :
    pieces.foldl (fun preview piece => appendPreview preview piece maximum) preview =
      preview ++ collected (maximum - utf8Len preview) pieces := by
  induction pieces generalizing preview with
  | nil => simp [collected]
  | cons piece pieces ih =>
    rw [foldl_cons, ih, appendPreview_eq, collected, String.utf8Len_append, Nat.sub_add_eq,
      append_assoc]

/-- A code preview collects what a number of further lines leave to it. -/
theorem foldl_previewStretch (lines : Lines) (preview : Chars) (count : ℕ) :
    ((bodyStretches lines []).foldl previewStretch (preview, count)).1 =
      (((lines.take (markdownCodePreviewMaxLines - count)).flatMap
          (fun line => (spilled line).1 ++ [(spilled line).2])
        ++ (lines.drop (markdownCodePreviewMaxLines - count)).flatMap fun line => (spilled line).1)
        ).foldl (fun preview piece => appendPreview preview piece markdownCodePreviewMaxBytes)
          preview := by
  have hfrags : ∀ (fragments : Lines) (shown : Chars × ℕ),
      (fragments.map Stretch.fragment).foldl previewStretch shown =
        (fragments.foldl (fun preview piece => appendPreview preview piece
          markdownCodePreviewMaxBytes) shown.1, shown.2) := by
    intro fragments
    induction fragments with
    | nil => exact fun _ => rfl
    | cons fragment fragments ih => exact fun shown => ih _
  induction lines generalizing preview count with
  | nil => simp [bodyStretches]
  | cons line lines ih =>
    have hcons : bodyStretches (line :: lines) [] =
        lineStretches line ++ bodyStretches lines [] := by
      simp [bodyStretches]
    rw [hcons, foldl_append, lineStretches, foldl_append, hfrags, foldl_cons,
      foldl_nil, previewStretch, ih]
    rcases lt_or_ge count markdownCodePreviewMaxLines with hshown | hpast
    · obtain ⟨left, hleft⟩ : ∃ left, markdownCodePreviewMaxLines - count = left + 1 :=
        ⟨markdownCodePreviewMaxLines - count - 1, by omega⟩
      rw [hleft, show markdownCodePreviewMaxLines - (count + 1) = left by omega, if_pos hshown]
      simp [foldl_append]
    · rw [Nat.sub_eq_zero_of_le hpast, Nat.sub_eq_zero_of_le (Nat.le_succ_of_le hpast),
        if_neg (by simpa using hpast)]
      simp [foldl_append]

theorem codePreview_eq (lines : Lines) : codePreview (bodyStretches lines []) =
      collected markdownCodePreviewMaxBytes (previewedCode lines) := by
  rw [codePreview, foldl_previewStretch, Nat.sub_zero, foldl_appendPreview]
  rfl

theorem tablePreview_eq (header delimiter : Chars) (rows : Lines) :
    tablePreview header delimiter rows =
      header ++ collected (markdownTablePreviewMaxBytes - utf8Len header)
        (delimiter :: rows.take markdownTablePreviewMaxBodyRows) := by
  rw [← foldl_appendPreview, foldl_cons]
  rfl

theorem flatten_flatMap_spilled (lines : Lines) :
    (lines.flatMap fun line => (spilled line).1 ++ [(spilled line).2]).flatten = lines.flatten := by
  induction lines with
  | nil => rfl
  | cons line lines ih =>
    have hline := flatten_spilled line
    rw [flatMap_cons, flatten_append, ih, flatten_cons]
    simp [hline]

/-- **When the preview of code is honest.** -/
theorem honest_code_iff {lines : Lines} (hlines : Lined lines) :
    HonestPreview .fencedCode lines.flatten (codePreview (bodyStretches lines []))
      ↔ PreviewSettles .fencedCode lines.flatten := by
  rw [codePreview_eq, PreviewSettles, hlines, previewedCode,
    ← flatten_flatMap_spilled (lines.take markdownCodePreviewMaxLines), ← collected_prefix_iff,
    flatten_flatMap_spilled]
  · have hbegins : (lines.take markdownCodePreviewMaxLines).flatten <+: lines.flatten :=
      ⟨(lines.drop markdownCodePreviewMaxLines).flatten, by
        rw [← flatten_append, take_append_drop]⟩
    constructor
    · rintro ⟨hprev, -, hcount⟩
      have hwithin := (length_segments_le_iff hprev).mp (hcount rfl)
      rwa [hlines] at hwithin
    · intro hwithin
      have hprev := hwithin.trans hbegins
      refine ⟨hprev, utf8Len_collected_le _ _, fun _ => ?_⟩
      rw [length_segments_le_iff hprev, hlines]
      exact hwithin
  · exact fun h => nomatch h

/-- **When the preview of a table is honest.** -/
theorem honest_table_iff {header delimiter : Chars} {rows : Lines}
    (hlines : Lined (header :: delimiter :: rows)) :
    HonestPreview .table (header :: delimiter :: rows).flatten (tablePreview header delimiter rows)
      ↔ PreviewSettles .table (header :: delimiter :: rows).flatten := by
  rw [PreviewSettles, hlines, headD_cons, tablePreview_eq]
  rcases lt_or_ge markdownTablePreviewMaxBytes (utf8Len header) with hlong | hfits
  · refine iff_of_false (fun h => ?_) fun h => absurd h.1 (not_le.mpr hlong)
    have hbytes : utf8Len _ ≤ markdownTablePreviewMaxBytes := h.bytes
    rw [String.utf8Len_append] at hbytes
    omega
  · have hpcs : previewedTable (header :: delimiter :: rows) =
        header :: delimiter :: rows.take markdownTablePreviewMaxBodyRows := rfl
    have hcoll : header ++ collected (markdownTablePreviewMaxBytes - utf8Len header)
        (delimiter :: rows.take markdownTablePreviewMaxBodyRows) =
        collected markdownTablePreviewMaxBytes (previewedTable (header :: delimiter :: rows)) := by
      rw [hpcs, collected.eq_2 _ header, takeBytes_of_le hfits]
    have hbegins : (previewedTable (header :: delimiter :: rows)).flatten <+:
        (header :: delimiter :: rows).flatten :=
      ⟨(rows.drop markdownTablePreviewMaxBodyRows).flatten, by
        rw [hpcs, ← flatten_append, cons_append, cons_append, take_append_drop]⟩
    have hsettles := @collected_prefix_iff markdownTablePreviewMaxBytes
      (previewedTable (header :: delimiter :: rows)) []
    rw [append_nil] at hsettles
    rw [hcoll, ← hsettles]
    constructor
    · rintro ⟨hprev, -, -⟩
      exact ⟨hfits, prefix_of_utf8Len_le hprev hbegins (utf8Len_collected_le_flatten _ _)⟩
    · rintro ⟨-, hwithin⟩
      exact ⟨hwithin.trans hbegins, utf8Len_collected_le _ _, by simp⟩

/-- **An honest preview can be stored.** -/
theorem materializeResource_eq_ok {kind : MarkdownBlockKind} {body preview : Chars}
    (h : HonestPreview kind body preview) (hnul : '\x00' ∉ body) {range : ProjectionSourceRange}
    (hrange : range.len = utf8Len body) {structureOf : ResourceStructure}
    (hkind : kind = .fencedCode ∧ (∃ language lines, structureOf = .code language lines)
      ∨ kind = .table ∧ ∃ rows columns header, structureOf = .table rows columns header
        ∧ header.stop ≤ range.len) :
    materializeResource kind range preview structureOf = .ok () := by
  have href : resourceReference kind preview = .ok preview := by
    have hresource : ¬ (kind ≠ .fencedCode ∧ kind ≠ .table) := by
      rcases hkind with ⟨rfl, -⟩ | ⟨rfl, -⟩ <;> simp
    have hclean : '\x00' ∉ preview := fun hmem => hnul (h.begins.subset hmem)
    simp [resourceReference, if_neg hresource, validateText, not_lt.mpr h.bytes, hclean]
  have hshown : utf8Len preview ≤ range.len := hrange ▸ utf8Len_le_of_prefix h.begins
  have hprev : ∃ shown, previewRange preview = .ok shown
      ∧ ∀ preview ∈ shown, preview.stop ≤ range.len := by
    rw [previewRange]
    split
    · exact ⟨none, rfl, by simp⟩
    · rw [ProjectionSourceRange.new, dif_pos (Nat.zero_le _)]
      refine ⟨_, rfl, ?_⟩
      rintro _ ⟨⟩
      exact hshown
  obtain ⟨shown, hshown, hstop⟩ := hprev
  have hmeta : ∀ resourceKind, newResourceMetadata resourceKind range shown structureOf =
      newResourceMetadata resourceKind range none structureOf := by
    intro resourceKind
    rcases shown with - | preview
    · rfl
    · simp only [newResourceMetadata, ensure_true (hstop preview rfl)]
      rfl
  rcases hkind with ⟨rfl, language, lines, rfl⟩ | ⟨rfl, rows, columns, header, rfl, hhdr⟩
  · simp [materializeResource, href, hshown, hmeta]
    rfl
  · have htable : newResourceMetadata .table range none (.table rows columns header) = .ok () :=
      ensure_true hhdr
    simp [materializeResource, href, hshown, hmeta, htable]

/-! ## The resources of a text -/

section

variable {D : Type} [ResourceDigest D]

theorem sourceText_rangeAt (before body after : Chars) :
    sourceText (before ++ body ++ after) (Block.rangeAt (utf8Len before) (utf8Len body)) =
        body := by
  have hlen : (Block.rangeAt (utf8Len before) (utf8Len body)).len = utf8Len body + 0 :=
    Nat.add_sub_cancel_left ..
  have hdrop := dropBytes_append 0 before (body ++ after)
  rw [add_zero, dropBytes_zero] at hdrop
  rw [sourceText, hlen, append_assoc]
  have htake := takeBytes_append 0 body after
  have hnone : takeBytes 0 after = [] := takeBytes_eq_nil_iff.mpr fun c _ => c.utf8Size_pos
  rw [show (Block.rangeAt (utf8Len before) (utf8Len body)).start = utf8Len before from rfl, hdrop,
    htake, hnone, append_nil]

/-- An output of a text comes from one of its blocks. -/
theorem exists_block_of_mem {cursor : ProjectionTextSourceCursor} {pieces : List TextPiece}
    {checkpoint : MarkdownParserCheckpoint D} {outputs : Outputs D}
    (hparse : parse cursor pieces = .ok (checkpoint, outputs)) {output : ParserOutput D}
    (hmem : output ∈ outputs) (hshows : output ≠ .empty) :
    ∃ (before : Chars) (block : Block) (after : Chars), block.WellFormed
      ∧ spelled pieces = before ++ block.text ++ after
          ∧ output ∈ block.outputs (utf8Len before) := by
  by_cases hempty : spelled pieces = []
  · obtain rfl := eq_nil_of_spelled hempty
    rw [parse_nil] at hparse
    cases Except.ok.inj hparse
    split at hmem
    · exact absurd (mem_singleton.mp hmem) hshows
    · cases hmem
  · obtain ⟨blocks, hblk, htext, rfl⟩ := ((parse_finished cursor hempty).of_eq_ok hparse).blocks
    obtain ⟨before, block, after, rfl, hblock⟩ := mem_outputsOf hmem
    refine ⟨textOf before, block, textOf after, hblk block (by simp), ?_, by simpa using hblock⟩
    rw [← htext]
    simp [textOf]

/-- **Which previews are honest and can be stored.**  The preview of a resource begins its source,
keeps to the limits and passes the checks of its records exactly when the preview of its source
settles. -/
theorem preview_honest {cursor : ProjectionTextSourceCursor} {pieces : List TextPiece}
    (hnul : '\x00' ∉ spelled pieces) {checkpoint : MarkdownParserCheckpoint D}
    {outputs : Outputs D} (hparse : parse cursor pieces = .ok (checkpoint, outputs))
    {blockStart : ℕ} {kind : MarkdownBlockKind} {range : ProjectionSourceRange}
    {preview : Chars} {structureOf : ResourceStructure} {digest : D}
    (hmem : .resource blockStart kind range preview structureOf digest ∈ outputs) :
    HonestPreview kind (sourceText (spelled pieces) range) preview
        ∧ materializeResource kind range preview structureOf = .ok ()
      ↔ PreviewSettles kind (sourceText (spelled pieces) range) := by
  obtain ⟨before, block, after, hblock, htext, hmem⟩ := exists_block_of_mem hparse hmem (by simp)
  rw [htext] at hnul ⊢
  cases block with
  | spans spanKind texts =>
    obtain ⟨_, _, _, _, hinline⟩ := mem_spanOutputs hmem
    cases hinline
  | code opening fence language lines closing =>
    obtain ⟨-, -, hlines, -⟩ := hblock
    obtain ⟨rfl, rfl, rfl, rfl, rfl, rfl⟩ := by simpa [Block.outputs] using hmem
    have hsource : before ++ Block.text (.code opening fence language lines closing) ++ after =
        (before ++ opening) ++ lines.flatten ++ (closing ++ after) := by
      simp [Block.text]
    rw [← String.utf8Len_append, hsource, sourceText_rangeAt, ← honest_code_iff hlines]
    refine ⟨And.left, fun h => ⟨h, materializeResource_eq_ok h ?_ ?_ (.inl ⟨rfl, _, _, rfl⟩)⟩⟩
    · exact fun hmem => hnul (by rw [hsource]; simp [hmem])
    · exact Nat.add_sub_cancel_left ..
  | table columns header delimiter rows =>
    obtain ⟨-, -, hlines, -⟩ := hblock
    obtain ⟨rfl, rfl, rfl, rfl, rfl, rfl⟩ := by simpa [Block.outputs] using hmem
    have hbody : utf8Len header + (utf8Len delimiter + utf8Len rows.flatten) =
        utf8Len (header :: delimiter :: rows).flatten := by
      simp
    have hsource : before ++ Block.text (.table columns header delimiter rows) ++ after =
        before ++ (header :: delimiter :: rows).flatten ++ after := by
      simp [Block.text]
    rw [hbody, hsource, sourceText_rangeAt, ← honest_table_iff hlines]
    have hlen : (Block.rangeAt (utf8Len before)
      (utf8Len (header :: delimiter :: rows).flatten)).len =
        utf8Len (header :: delimiter :: rows).flatten := Nat.add_sub_cancel_left ..
    refine ⟨And.left, fun h => ⟨h, materializeResource_eq_ok h ?_ hlen
      (.inr ⟨rfl, _, _, _, rfl, ?_⟩)⟩⟩
    · exact fun hmem => hnul (by rw [hsource]; simp only [mem_append]; tauto)
    · rw [hlen, flatten_cons, String.utf8Len_append]
      exact (zero_add _).trans_le (Nat.le_add_right _ _)

end

/-- Whether an output is a resource that passes a test. -/
def ParserOutput.shows {D : Type}
    (test : MarkdownBlockKind → ProjectionSourceRange → Chars → Bool) : ParserOutput D → Bool
  | .resource _ kind range preview _ _ => test kind range preview
  | _ => false

theorem exists_resource_of_shows {D : Type} {x : Scan D}
    {test : MarkdownBlockKind → ProjectionSourceRange → Chars → Bool}
    (h : x.toOption.any (fun r => r.2.any (ParserOutput.shows test)) = true) :
    ∃ checkpoint outputs blockStart kind range preview structureOf digest,
      x = .ok (checkpoint, outputs)
      ∧ .resource blockStart kind range preview structureOf digest ∈ outputs
      ∧ test kind range preview = true := by
  rcases x with e | ⟨checkpoint, outputs⟩
  · cases h
  · obtain ⟨output, hmem, htest⟩ := any_eq_true.mp h
    cases output with
    | resource blockStart kind range preview structureOf digest =>
      exact ⟨checkpoint, outputs, blockStart, kind, range, preview, structureOf, digest, rfl, hmem,
        htest⟩
    | inline => cases htest
    | imageMarker => cases htest
    | empty => cases htest

/-- The preview of a line of code. -/
theorem preview_honest_code :
    ∃ checkpoint outputs blockStart kind range preview structureOf digest,
      (parse (.providerNarrative 0)
          [⟨"```\nx\n```\n".toList, by decide, .providerNarrative 10⟩] :
        Scan (ResourceKind × Lines)) = .ok (checkpoint, outputs)
      ∧ .resource blockStart kind range preview structureOf digest ∈ outputs
      ∧ HonestPreview kind (sourceText "```\nx\n```\n".toList range) preview
      ∧ materializeResource kind range preview structureOf = .ok () := by
  obtain ⟨checkpoint, outputs, blockStart, kind, range, preview, structureOf, digest, hparse, hmem,
    hshows⟩ := @exists_resource_of_shows (ResourceKind × Lines)
      (parse (.providerNarrative 0) [⟨"```\nx\n```\n".toList, by decide, .providerNarrative 10⟩])
      (fun kind range _ => kind == .fencedCode && range == ⟨4, 6, by decide⟩) (by decide +kernel)
  obtain ⟨rfl, rfl⟩ : kind = .fencedCode ∧ range = ⟨4, 6, by decide⟩ := by simpa using hshows
  have hsettles : PreviewSettles .fencedCode ["x\n".toList].flatten :=
    (honest_code_iff (show segments _ = _ by decide)).mp
      ⟨by decide +kernel, by decide +kernel, by decide +kernel⟩
  exact ⟨checkpoint, outputs, blockStart, _, _, preview, structureOf, digest, hparse, hmem,
    (preview_honest (by decide) hparse hmem).mpr hsettles⟩

/-- A table of thirteen columns, one of which alone is as long as a preview may be. -/
def wideTable : Chars :=
  '|' :: List.replicate 1024 '𝕒' ++ (List.replicate 12 "|b".toList).flatten ++ "|\n".toList
    ++ (List.replicate 13 "|---".toList).flatten ++ "|\n".toList

/-- **The preview of a table holds its whole header**, and is refused when that is too long. -/
theorem preview_too_long :
    '\x00' ∉ wideTable ∧ ∃ checkpoint outputs blockStart kind range preview structureOf digest,
      (parse (.providerNarrative 0) [⟨wideTable, by decide, .providerNarrative 4177⟩] :
        Scan (ResourceKind × Lines)) = .ok (checkpoint, outputs)
      ∧ .resource blockStart kind range preview structureOf digest ∈ outputs
      ∧ ¬ HonestPreview kind (sourceText wideTable range) preview
      ∧ materializeResource kind range preview structureOf ≠ .ok () := by
  refine ⟨by decide +kernel, ?_⟩
  obtain ⟨checkpoint, outputs, blockStart, kind, range, preview, structureOf, digest, hparse, hmem,
    hshows⟩ := @exists_resource_of_shows (ResourceKind × Lines)
      (parse (.providerNarrative 0) [⟨wideTable, by decide, .providerNarrative 4177⟩])
      (fun kind _ preview => kind == .table && decide
        (markdownTablePreviewMaxBytes < utf8Len preview))
      (by decide +kernel)
  obtain ⟨rfl, hlong⟩ : kind = .table ∧ markdownTablePreviewMaxBytes < utf8Len preview := by
    simpa using hshows
  refine ⟨checkpoint, outputs, blockStart, .table, range, preview, structureOf, digest, hparse,
    hmem, fun h => absurd h.bytes (not_le.mpr hlong), ?_⟩
  have hrefused : resourceReference .table preview = .error (.bytesTooLong
      "projection resource preview" markdownTablePreviewMaxBytes (utf8Len preview)) := by
    simp [resourceReference, validateText, previewMaxBytes, hlong]
  rw [materializeResource, hrefused]
  intro h
  cases h

end Beryl.Projection
