import WebFonts.Css.Span
import WebFonts.Overlay

/-!
# What a run of insertions renders

An overlay is used by calls that put a text in front or insert one at an offset; a refused insertion
leaves it as it was. `Overlay.run_refines` compares every run with a plain model that keeps no map
and no cursor: `Edit.plain` computes the bytes to be rendered from the source and the calls alone,
offset by offset.

The proof has three parts. One call does to `Overlay.insertedAt` and to the lead what the model
says, hence a run does (`insertedAt_run`, `lead_run`). Every run keeps the insertions `Sound`: they
stand at boundaries and are not empty. For such an overlay the bytes of `render` are found
offset by offset (`bytes_render`), and so is what a cursor renders that slices the source at the
sorted offsets (`renderSliced?_eq`).
-/

namespace WebFonts

open Text (size isBoundary)

/-! ### Calls and their plain model -/

/-- One call on an overlay. -/
inductive Edit where
  /-- Puts a text in front of everything. -/
  | prepend (text : String)
  /-- Inserts a text before the character at an offset. -/
  | insert (offset : Nat) (text : String)
deriving Repr, DecidableEq

/-- The overlay behind a call. A refused insertion leaves it as it was. -/
def Overlay.after (overlay : Overlay) : Edit → Overlay
  | .prepend text => overlay.prepend text
  | .insert offset text =>
    match overlay.insert offset text with
    | .ok changed => changed
    | .error _ => overlay

/-- The overlay behind a sequence of calls. -/
def Overlay.run (overlay : Overlay) (edits : List Edit) : Overlay :=
  edits.foldl Overlay.after overlay

namespace Edit

/-- The bytes of a text in UTF-8. -/
def bytes (text : String) : List UInt8 :=
  text.toUTF8.data.toList

/-- A text may be inserted into a source at an offset: the source reaches that far, and no
character straddles the offset. -/
def Accepts (source : String) (offset : Nat) : Prop :=
  offset ≤ source.utf8ByteSize ∧ (String.Pos.Raw.mk offset).IsValid source

instance (source : String) (offset : Nat) : Decidable (Accepts source offset) :=
  inferInstanceAs (Decidable (_ ∧ _))

/-- The text that a call puts in front. -/
def lead? : Edit → Option String
  | prepend text => some text
  | insert .. => none

/-- The text that a call inserts into a source at an offset. -/
def textAt? (source : String) (offset : Nat) : Edit → Option String
  | prepend _ => none
  | insert place text => if place = offset ∧ Accepts source place then some text else none

/-- What a sequence of calls makes of a source: the texts put in front, the newest first, and the
bytes of the source, before each of them and at their end the texts inserted there, in the order of
the calls. -/
def plain (source : String) (edits : List Edit) : List UInt8 :=
  (edits.filterMap lead?).reverse.flatMap bytes ++
    (List.range (source.utf8ByteSize + 1)).flatMap fun offset =>
      (edits.filterMap (textAt? source offset)).flatMap bytes ++ (bytes source)[offset]?.toList

end Edit

namespace Overlay

open Edit (bytes Accepts lead? textAt? plain)

/-! ### Bytes -/

@[simp] theorem bytes_ofList (text : List Char) :
    bytes (String.ofList text) = text.flatMap String.utf8EncodeChar := by
  simp [bytes, List.utf8Encode]

theorem bytes_eq (text : String) : bytes text = text.toList.flatMap String.utf8EncodeChar := by
  rw [← bytes_ofList, String.ofList_toList]

@[simp] theorem bytes_append (front back : String) :
    bytes (front ++ back) = bytes front ++ bytes back := by
  simp [bytes_eq, List.flatMap_append]

@[simp] theorem bytes_empty : bytes "" = [] := rfl

theorem length_encode (text : List Char) :
    (text.flatMap String.utf8EncodeChar).length = size text := by
  induction text with
  | nil => rfl
  | cons c rest ih => simp [ih]

theorem length_bytes (text : String) : (bytes text).length = text.utf8ByteSize :=
  rfl

theorem utf8ByteSize_eq_size (text : String) : text.utf8ByteSize = size text.toList := by
  rw [← length_bytes, bytes_eq, length_encode]

/-- The positions of a text are the boundaries between its characters. -/
theorem isValid_iff_isBoundary {source : String} {offset : Nat} :
    (String.Pos.Raw.mk offset).IsValid source ↔ isBoundary offset source.toList = true := by
  rw [String.Pos.Raw.isValid_iff_exists_append, Text.isBoundary_iff]
  constructor
  · rintro ⟨front, back, rfl, hoffset⟩
    refine ⟨front.toList, back.toList, String.toList_append, ?_⟩
    rw [← utf8ByteSize_eq_size]
    exact congrArg String.Pos.Raw.byteIdx hoffset.symm
  · rintro ⟨front, back, hsource, rfl⟩
    refine ⟨String.ofList front, String.ofList back, ?_, ?_⟩
    · rw [← String.ofList_append, ← hsource, String.ofList_toList]
    · rw [← String.toList_ofList (l := front), ← utf8ByteSize_eq_size, String.toList_ofList]
      rfl

/-! ### One call -/

variable {overlay : Overlay}

theorem accepts_iff_isBoundary {source : String} {offset : Nat} :
    Accepts source offset ↔ isBoundary offset source.toList = true := by
  rw [← isValid_iff_isBoundary]
  exact ⟨And.right, fun h => ⟨String.Pos.Raw.le_iff.mp h.le_rawEndPos, h⟩⟩

/-- An insertion is accepted exactly where the model accepts it. -/
theorem insert_isOk_iff {offset : Nat} {text : String} :
    (∃ changed, overlay.insert offset text = .ok changed) ↔ Accepts overlay.source offset := by
  simp [insert_eq_ok_iff, accepts_iff_isBoundary]

theorem after_insert_of_accepts {offset : Nat} {text : String}
    (h : Accepts overlay.source offset) :
    overlay.after (.insert offset text) = overlay.place offset text := by
  rw [after, insert_eq_ok_iff.mpr ⟨accepts_iff_isBoundary.mp h, rfl⟩]

theorem after_insert_of_not_accepts {offset : Nat} {text : String}
    (h : ¬ Accepts overlay.source offset) : overlay.after (.insert offset text) = overlay := by
  cases hinsert : overlay.insert offset text with
  | ok changed => exact absurd (insert_isOk_iff.mp ⟨changed, hinsert⟩) h
  | error fault => simp only [after, hinsert]

@[simp] theorem source_after (edit : Edit) : (overlay.after edit).source = overlay.source := by
  cases edit with
  | prepend text => rfl
  | insert offset text =>
    by_cases h : Accepts overlay.source offset
    · rw [after_insert_of_accepts h, source_place]
    · rw [after_insert_of_not_accepts h]

theorem lead_after (edit : Edit) :
    (overlay.after edit).lead = edit.lead?.getD "" ++ overlay.lead := by
  cases edit with
  | prepend text => rfl
  | insert offset text =>
    by_cases h : Accepts overlay.source offset
    · simp [after_insert_of_accepts h, lead?]
    · simp [after_insert_of_not_accepts h, lead?]

theorem insertedAt_after (edit : Edit) (offset : Nat) :
    (overlay.after edit).insertedAt offset =
      overlay.insertedAt offset ++ (edit.textAt? overlay.source offset).getD "" := by
  cases edit with
  | prepend text =>
    simp only [textAt?, Option.getD_none, String.append_empty]
    rfl
  | insert place text =>
    by_cases h : Accepts overlay.source place
    · rw [after_insert_of_accepts h, insertedAt_place, textAt?]
      by_cases heq : place = offset
      · rw [if_pos heq, if_pos ⟨heq, h⟩, Option.getD_some]
      · simp [heq]
    · simp [after_insert_of_not_accepts h, textAt?, h]

/-! ### Runs -/

theorem run_cons (edit : Edit) (edits : List Edit) :
    overlay.run (edit :: edits) = (overlay.after edit).run edits :=
  rfl

@[simp] theorem source_run (edits : List Edit) : (overlay.run edits).source = overlay.source := by
  induction edits generalizing overlay with
  | nil => rfl
  | cons edit edits ih => rw [run_cons, ih, source_after]

theorem bytes_lead_run (edits : List Edit) :
    bytes (overlay.run edits).lead =
      (edits.filterMap lead?).reverse.flatMap bytes ++ bytes overlay.lead := by
  induction edits generalizing overlay with
  | nil => rfl
  | cons edit edits ih =>
    rw [run_cons, ih, lead_after, bytes_append]
    cases hlead : edit.lead? <;> simp [hlead]

theorem bytes_insertedAt_run (edits : List Edit) (offset : Nat) :
    bytes ((overlay.run edits).insertedAt offset) =
      bytes (overlay.insertedAt offset) ++
        (edits.filterMap (textAt? overlay.source offset)).flatMap bytes := by
  induction edits generalizing overlay with
  | nil => simp [run]
  | cons edit edits ih =>
    rw [run_cons, ih, insertedAt_after, source_after, bytes_append]
    cases htext : edit.textAt? overlay.source offset <;> simp [htext]

/-- What every run keeps: the insertions stand at boundaries of the source and are not empty. -/
structure Sound (overlay : Overlay) : Prop where
  onBoundary : ∀ (offset : Nat) (text : String), overlay.inserts[offset]? = some text →
    isBoundary offset overlay.source.toList = true
  nonempty : ∀ (offset : Nat) (text : String), overlay.inserts[offset]? = some text → text ≠ ""

theorem sound_ofSource (source : String) : (ofSource source).Sound :=
  ⟨by simp [ofSource], by simp [ofSource]⟩

/-- What is found behind an insertion stood there before, or is the text inserted. -/
theorem of_getElem?_place {offset other : Nat} {text found : String}
    (h : (overlay.place offset text).inserts[other]? = some found) :
    overlay.inserts[other]? = some found ∨
      offset = other ∧ text ≠ "" ∧ found = overlay.insertedAt offset ++ text := by
  unfold place at h
  split at h
  · exact .inl h
  · rename_i hempty
    simp only [Std.ExtTreeMap.getElem?_insert, Std.compare_eq_iff_eq] at h
    by_cases heq : offset = other
    · rw [if_pos heq, Option.some.injEq] at h
      exact .inr ⟨heq, mt String.isEmpty_iff.mpr hempty, h.symm⟩
    · rw [if_neg heq] at h
      exact .inl h

theorem Sound.place (h : overlay.Sound) {offset : Nat} (haccepts : Accepts overlay.source offset)
    (text : String) : (overlay.place offset text).Sound := by
  constructor
  · intro other found hfound
    rw [source_place]
    rcases of_getElem?_place hfound with hold | ⟨rfl, -, -⟩
    · exact h.onBoundary other found hold
    · exact accepts_iff_isBoundary.mp haccepts
  · intro other found hfound
    rcases of_getElem?_place hfound with hold | ⟨-, hne, rfl⟩
    · exact h.nonempty other found hold
    · exact fun hnil => hne (String.append_eq_empty_iff.mp hnil).2

theorem Sound.after (h : overlay.Sound) (edit : Edit) : (overlay.after edit).Sound := by
  cases edit with
  | prepend text => exact ⟨h.onBoundary, h.nonempty⟩
  | insert offset text =>
    by_cases haccepts : Accepts overlay.source offset
    · rw [after_insert_of_accepts haccepts]
      exact h.place haccepts text
    · rw [after_insert_of_not_accepts haccepts]
      exact h

theorem Sound.run (h : overlay.Sound) (edits : List Edit) : (overlay.run edits).Sound := by
  induction edits generalizing overlay with
  | nil => exact h
  | cons edit edits ih => exact ih (h.after edit)

theorem insertedAt_eq_of_getElem? {offset : Nat} {text : String}
    (h : overlay.inserts[offset]? = some text) : overlay.insertedAt offset = text := by
  rw [insertedAt, Std.ExtTreeMap.getD_eq_getD_getElem?, h, Option.getD_some]

theorem insertedAt_eq_empty_of_getElem? {offset : Nat} (h : overlay.inserts[offset]? = none) :
    overlay.insertedAt offset = "" := by
  rw [insertedAt, Std.ExtTreeMap.getD_eq_getD_getElem?, h, Option.getD_none]

/-- Nothing is inserted inside a character. -/
theorem Sound.insertedAt_eq_empty (h : overlay.Sound) {offset : Nat}
    (hinside : isBoundary offset overlay.source.toList = false) :
    overlay.insertedAt offset = "" := by
  apply insertedAt_eq_empty_of_getElem?
  cases hfound : overlay.inserts[offset]? with
  | none => rfl
  | some text => exact absurd (h.onBoundary offset text hfound) (by simp [hinside])

/-! ### Rendering, offset by offset -/

/-- Where nothing is inserted, a stretch of bytes stays as it is. -/
theorem flatMap_quiet {inserted : Nat → List UInt8} {all part rest : List UInt8} {start : Nat}
    (hall : all.drop start = part ++ rest)
    (hquiet : ∀ i, start ≤ i → i < start + part.length → inserted i = []) :
    (List.range' start part.length).flatMap (fun i => inserted i ++ all[i]?.toList) = part := by
  induction part generalizing start with
  | nil => rfl
  | cons byte part ih =>
    have hbyte : all[start]? = some byte := by
      rw [← List.head?_drop, hall]
      rfl
    have hrest : all.drop (start + 1) = part ++ rest := by
      rw [← List.tail_drop, hall]
      rfl
    have hfirst : inserted start = [] := hquiet start (Nat.le_refl _) (by simp)
    have htail := ih hrest fun i hle hlt => hquiet i (by omega) (by simp; omega)
    rw [List.length_cons, List.range'_succ, List.flatMap_cons, htail, hbyte, hfirst]
    rfl

/-- Only in front of a character is anything inserted, not among the bytes of one. -/
theorem flatMap_char {inserted : Nat → List UInt8} {all part rest : List UInt8} {start : Nat}
    (hall : all.drop start = part ++ rest) (hne : part ≠ [])
    (hquiet : ∀ i, start < i → i < start + part.length → inserted i = []) :
    (List.range' start part.length).flatMap (fun i => inserted i ++ all[i]?.toList) =
      inserted start ++ part := by
  obtain ⟨byte, part, rfl⟩ := List.exists_cons_of_ne_nil hne
  have hbyte : all[start]? = some byte := by
    rw [← List.head?_drop, hall]
    rfl
  have hrest : all.drop (start + 1) = part ++ rest := by
    rw [← List.tail_drop, hall]
    rfl
  have htail := flatMap_quiet hrest fun i hle hlt => hquiet i (by omega) (by simp; omega)
  rw [List.length_cons, List.range'_succ, List.flatMap_cons, htail, hbyte]
  simp

/-- No boundary lies among the bytes of a character. -/
theorem isBoundary_inside {front rest : List Char} {c : Char} {offset : Nat}
    (hle : size front < offset) (hlt : offset < size front + c.utf8Size) :
    isBoundary offset (front ++ c :: rest) = false := by
  rw [Bool.eq_false_iff]
  intro hboundary
  obtain ⟨before, behind, htext, hsize⟩ := Text.isBoundary_iff.mp hboundary
  rcases List.append_eq_append_iff.mp htext with ⟨tail, rfl, hrest⟩ | ⟨tail, rfl, -⟩
  · cases tail with
    | nil => simp at hsize; omega
    | cons d tail =>
      obtain ⟨rfl, -⟩ := List.cons_eq_cons.mp hrest
      simp at hsize
      omega
  · simp at hle
    omega

/-- What is woven into a part of the source that reaches to its end, offset by offset. -/
theorem bytes_weave (h : overlay.Sound) {front rest : List Char}
    (hsource : overlay.source.toList = front ++ rest) :
    (overlay.weave (size front) rest).flatMap String.utf8EncodeChar =
      (List.range' (size front) (size rest + 1)).flatMap fun offset =>
        bytes (overlay.insertedAt offset) ++ (bytes overlay.source)[offset]?.toList := by
  induction rest generalizing front with
  | nil =>
    have hend : (bytes overlay.source)[size front]? = none := by
      rw [List.getElem?_eq_none_iff, length_bytes, utf8ByteSize_eq_size, hsource]
      simp
    rw [weave, Text.size_nil, List.range'_one, List.flatMap_singleton, hend, bytes_eq]
    simp
  | cons c rest ih =>
    have hdrop : (bytes overlay.source).drop (size front) =
        String.utf8EncodeChar c ++ rest.flatMap String.utf8EncodeChar := by
      rw [bytes_eq, hsource, List.flatMap_append, ← length_encode front, List.drop_left]
      rfl
    have hquiet (i : Nat) (hle : size front < i)
        (hlt : i < size front + (String.utf8EncodeChar c).length) :
        bytes (overlay.insertedAt i) = [] := by
      rw [String.length_utf8EncodeChar] at hlt
      rw [h.insertedAt_eq_empty (hsource ▸ isBoundary_inside hle hlt), bytes_empty]
    have hchar := flatMap_char hdrop String.utf8EncodeChar_ne_nil hquiet
    have hrest : overlay.source.toList = front ++ [c] ++ rest := by simpa using hsource
    have hnext : size (front ++ [c]) = size front + c.utf8Size := by simp
    have htail := ih hrest
    rw [hnext] at htail
    rw [String.length_utf8EncodeChar] at hchar
    have hlength : size (c :: rest) + 1 = c.utf8Size + (size rest + 1) := by
      rw [Text.size_cons, Nat.add_assoc]
    rw [hlength, ← List.range'_append_1, List.flatMap_append, ← htail]
    refine Eq.trans ?_ (congrArg (· ++ _) hchar.symm)
    simp [weave, bytes_eq]

/-- The bytes that are rendered, offset by offset. -/
theorem bytes_render (h : overlay.Sound) :
    bytes overlay.render =
      bytes overlay.lead ++ (List.range (overlay.source.utf8ByteSize + 1)).flatMap fun offset =>
        bytes (overlay.insertedAt offset) ++ (bytes overlay.source)[offset]?.toList := by
  have hweave := bytes_weave h (List.nil_append overlay.source.toList).symm
  rw [Text.size_nil] at hweave
  rw [render, bytes_append, bytes_ofList, hweave, List.range_eq_range', utf8ByteSize_eq_size]

/-! ### Rendering with a cursor -/

/-- The source behind a cursor with some insertions, sliced at their offsets. There is no result
if an offset does not stand at a boundary behind the cursor. -/
def sliced? (source : String) (cursor : Nat) : List (Nat × String) → Option String
  | [] => Css.Span.slice? source ⟨cursor, source.utf8ByteSize⟩
  | (offset, text) :: later => do
    let part ← Css.Span.slice? source ⟨cursor, offset⟩
    let rest ← sliced? source offset later
    return part ++ text ++ rest

/-- The source with all insertions, sliced at their offsets in increasing order. -/
def renderSliced? (overlay : Overlay) : Option String :=
  (sliced? overlay.source 0 overlay.inserts.toList).map (overlay.lead ++ ·)

/-- The overlay without what is inserted at an offset. -/
def clear (offset : Nat) (overlay : Overlay) : Overlay :=
  { overlay with inserts := overlay.inserts.erase offset }

theorem insertedAt_clear (offset other : Nat) :
    (overlay.clear offset).insertedAt other =
      if offset = other then "" else overlay.insertedAt other := by
  simp only [insertedAt, clear, Std.ExtTreeMap.getD_erase, Std.compare_eq_iff_eq]

/-- Only what is inserted from an offset on is woven into the text behind it. -/
theorem weave_congr {overlay' : Overlay} {offset : Nat}
    (h : ∀ other, offset ≤ other → overlay.insertedAt other = overlay'.insertedAt other)
    (text : List Char) : overlay.weave offset text = overlay'.weave offset text := by
  induction text generalizing offset with
  | nil => rw [weave, weave, h offset (Nat.le_refl _)]
  | cons c rest ih =>
    rw [weave, weave, h offset (Nat.le_refl _), ih fun other hle => h other (by omega)]

theorem weave_eq_clear (offset : Nat) (text : List Char) :
    overlay.weave offset text =
      (overlay.insertedAt offset).toList ++ (overlay.clear offset).weave offset text := by
  cases text with
  | nil => simp [weave, insertedAt_clear]
  | cons c rest =>
    have := c.utf8Size_pos
    have hrest : overlay.weave (offset + c.utf8Size) rest =
        (overlay.clear offset).weave (offset + c.utf8Size) rest :=
      weave_congr (fun other hle => by rw [insertedAt_clear, if_neg (by omega)]) rest
    simp [weave, insertedAt_clear, hrest]

/-- Where nothing is inserted, a part of the text stays as it is. -/
theorem weave_append {offset : Nat} {part : List Char}
    (h : ∀ other, offset ≤ other → other < offset + size part → overlay.insertedAt other = "")
    (rest : List Char) :
    overlay.weave offset (part ++ rest) = part ++ overlay.weave (offset + size part) rest := by
  induction part generalizing offset with
  | nil => rfl
  | cons c part ih =>
    have := c.utf8Size_pos
    have hfirst := h offset (Nat.le_refl _) (by simp; omega)
    have hlater (other : Nat) (hle : offset + c.utf8Size ≤ other)
        (hlt : other < offset + c.utf8Size + size part) : overlay.insertedAt other = "" :=
      h other (by omega) (by simp; omega)
    simp [weave, hfirst, ih hlater, Nat.add_assoc]

/-- A boundary behind a part in front divides the rest. -/
theorem exists_append_of_isBoundary {source front rest : List Char} {offset : Nat}
    (hsource : source = front ++ rest) (hle : size front ≤ offset)
    (h : isBoundary offset source = true) :
    ∃ part back, rest = part ++ back ∧ offset = size front + size part := by
  obtain ⟨front', back, hdivided, rfl⟩ := Text.isBoundary_iff.mp h
  rw [hsource] at hdivided
  rcases List.append_eq_append_iff.mp hdivided with ⟨part, rfl, hrest⟩ | ⟨part, rfl, hrest⟩
  · exact ⟨part, back, hrest, Text.size_append ..⟩
  · have hnil : part = [] := by
      rw [← Text.size_eq_zero]
      rw [Text.size_append] at hle
      omega
    subst hnil
    exact ⟨[], rest, rfl, by simp⟩

/-- Some insertions are those of an overlay from an offset on, in the order of their offsets, which
stand at boundaries of the source. -/
structure Ahead (overlay : Overlay) (start : Nat) (entries : List (Nat × String)) : Prop where
  sorted : entries.Pairwise fun entry later => entry.1 < later.1
  start_le : ∀ entry ∈ entries, start ≤ entry.1
  onBoundary : ∀ entry ∈ entries, isBoundary entry.1 overlay.source.toList = true
  getElem?_iff : ∀ offset text, start ≤ offset →
    (overlay.inserts[offset]? = some text ↔ (offset, text) ∈ entries)

namespace Ahead

variable {start offset : Nat} {text : String} {entries later : List (Nat × String)}

theorem insertedAt_eq_empty (h : overlay.Ahead start entries) (hle : start ≤ offset)
    (hnone : ∀ entry ∈ entries, entry.1 ≠ offset) : overlay.insertedAt offset = "" := by
  apply insertedAt_eq_empty_of_getElem?
  rw [Option.eq_none_iff_forall_ne_some]
  intro text htext
  exact hnone _ ((h.getElem?_iff offset text hle).mp htext) rfl

theorem insertedAt_first (h : overlay.Ahead start ((offset, text) :: later)) :
    overlay.insertedAt offset = text :=
  insertedAt_eq_of_getElem?
    ((h.getElem?_iff offset text (h.start_le _ List.mem_cons_self)).mpr List.mem_cons_self)

/-- Nothing is inserted in front of the first offset. -/
theorem insertedAt_before (h : overlay.Ahead start ((offset, text) :: later)) {other : Nat}
    (hle : start ≤ other) (hlt : other < offset) : overlay.insertedAt other = "" := by
  refine h.insertedAt_eq_empty hle fun entry hmem => ?_
  rcases List.mem_cons.mp hmem with rfl | hlater
  · exact Nat.ne_of_gt hlt
  · exact Nat.ne_of_gt (Nat.lt_trans hlt ((List.pairwise_cons.mp h.sorted).1 entry hlater))

/-- Once the first insertion is cleared, the later ones are ahead of its offset. -/
theorem clear_first (h : overlay.Ahead start ((offset, text) :: later)) :
    (overlay.clear offset).Ahead offset later := by
  obtain ⟨hbehind, hsorted⟩ := List.pairwise_cons.mp h.sorted
  refine ⟨hsorted, fun entry hmem => Nat.le_of_lt (hbehind entry hmem),
    fun entry hmem => h.onBoundary entry (List.mem_cons_of_mem _ hmem), fun other found hle => ?_⟩
  simp only [clear, Std.ExtTreeMap.getElem?_erase, Std.compare_eq_iff_eq]
  by_cases heq : offset = other
  · subst heq
    simp only [if_true, reduceCtorEq, false_iff]
    exact fun hmem => Nat.lt_irrefl _ (hbehind (offset, found) hmem)
  · have hstart : start ≤ other := Nat.le_trans (h.start_le _ List.mem_cons_self) hle
    rw [if_neg heq, h.getElem?_iff other found hstart]
    simp [Ne.symm heq]

end Ahead

/-- Slicing at sorted offsets weaves in the same texts. The induction is on the insertions that are
still ahead of the cursor, and clears each one behind it. -/
theorem sliced?_eq_weave {entries : List (Nat × String)} {front rest : List Char}
    (hsource : overlay.source.toList = front ++ rest) (h : overlay.Ahead (size front) entries) :
    sliced? overlay.source (size front) entries =
      some (String.ofList (overlay.weave (size front) rest)) := by
  induction entries generalizing overlay front rest with
  | nil =>
    have hquiet : ∀ offset, size front ≤ offset → overlay.insertedAt offset = "" :=
      fun offset hle => h.insertedAt_eq_empty hle nofun
    have hweave : overlay.weave (size front) (rest ++ []) = _ :=
      weave_append (fun other hle _ => hquiet other hle) []
    have hend : size overlay.source.toList = size front + size rest := by
      rw [hsource, Text.size_append]
    rw [List.append_nil, weave, hquiet _ (Nat.le_add_right ..)] at hweave
    rw [hweave, sliced?, utf8ByteSize_eq_size, hend]
    have hwhole : overlay.source.toList = front ++ (rest ++ []) := by simpa using hsource
    simpa using Css.Span.slice?_append hwhole
  | cons entry later ih =>
    obtain ⟨offset, text⟩ := entry
    obtain ⟨part, back, rfl, rfl⟩ := exists_append_of_isBoundary hsource
      (h.start_le _ List.mem_cons_self) (h.onBoundary _ List.mem_cons_self)
    have hsource' : (overlay.clear (size front + size part)).source.toList =
        front ++ part ++ back := by
      rw [List.append_assoc]
      exact hsource
    have hlater := ih hsource' (by rw [Text.size_append]; exact h.clear_first)
    rw [Text.size_append] at hlater
    rw [sliced?, Css.Span.slice?_append hsource,
      weave_append fun other hle hlt => h.insertedAt_before hle hlt, weave_eq_clear,
      h.insertedAt_first]
    simp only [Option.bind_eq_bind, Option.bind_some]
    rw [show overlay.source = (overlay.clear (size front + size part)).source from rfl, hlater]
    simp [String.append_assoc]

/-- All insertions of an overlay are ahead of the beginning of its source. -/
theorem Sound.ahead (h : overlay.Sound) : overlay.Ahead 0 overlay.inserts.toList where
  sorted := by
    have hsorted := Std.ExtTreeMap.ordered_keys_toList (t := overlay.inserts)
    simpa [List.pairwise_map, Std.compare_eq_lt] using hsorted
  start_le entry _ := Nat.zero_le _
  onBoundary entry hmem :=
    h.onBoundary entry.1 entry.2 (Std.ExtTreeMap.mem_toList_iff_getElem?_eq_some.mp hmem)
  getElem?_iff _ _ _ := Std.ExtTreeMap.mem_toList_iff_getElem?_eq_some.symm

/-- The offsets of the insertions are rendered in increasing order. -/
theorem renderSliced?_eq (h : overlay.Sound) : overlay.renderSliced? = some overlay.render := by
  have hweave : sliced? overlay.source (size []) overlay.inserts.toList = _ :=
    sliced?_eq_weave (List.nil_append overlay.source.toList).symm h.ahead
  rw [Text.size_nil] at hweave
  rw [renderSliced?, hweave]
  rfl

/-! ### Whether anything changed -/

theorem length_le_weave (offset : Nat) (text : List Char) :
    text.length ≤ (overlay.weave offset text).length := by
  induction text generalizing offset with
  | nil => exact Nat.zero_le _
  | cons c rest ih =>
    have := ih (offset + c.utf8Size)
    simp [weave]
    omega

/-- A text that is inserted makes what is rendered longer. -/
theorem length_lt_weave {offset : Nat} {front : List Char} (back : List Char)
    (h : overlay.insertedAt (offset + size front) ≠ "") :
    (front ++ back).length < (overlay.weave offset (front ++ back)).length := by
  induction front generalizing offset with
  | nil =>
    have hpos : 0 < (overlay.insertedAt offset).toList.length := by
      rw [List.length_pos_iff]
      exact fun hnil => h (String.toList_eq_nil_iff.mp hnil)
    cases back with
    | nil => simpa [weave] using hpos
    | cons c rest =>
      have := overlay.length_le_weave (offset + c.utf8Size) rest
      simp only [List.nil_append, weave, List.length_append, List.length_cons]
      omega
  | cons c front ih =>
    have hbehind : overlay.insertedAt (offset + c.utf8Size + size front) ≠ "" := by
      rwa [Nat.add_assoc]
    have := ih hbehind
    simp only [List.cons_append, weave, List.length_append, List.length_cons] at this ⊢
    omega

theorem eq_ofSource_of_isChanged (h : overlay.isChanged = false) :
    overlay = ofSource overlay.source := by
  obtain ⟨source, lead, inserts⟩ := overlay
  simp only [isChanged, Bool.or_eq_false_iff, Bool.not_eq_false', String.isEmpty_iff,
    Std.ExtTreeMap.isEmpty_iff] at h
  obtain ⟨rfl, rfl⟩ := h
  rfl

/-- An overlay that counts as changed has a lead, or an insertion somewhere in its source. -/
theorem lead_or_inserted (h : overlay.Sound) (hchanged : overlay.isChanged = true) :
    overlay.lead ≠ "" ∨ ∃ front back, overlay.source.toList = front ++ back ∧
      overlay.insertedAt (size front) ≠ "" := by
  simp only [isChanged, Bool.or_eq_true, Bool.not_eq_true'] at hchanged
  refine hchanged.imp (fun hlead => ?_) fun hinserts => ?_
  · exact fun hnil => by simp [hnil] at hlead
  · rw [← Std.ExtTreeMap.isEmpty_toList, List.isEmpty_eq_false_iff] at hinserts
    obtain ⟨⟨offset, text⟩, hmem⟩ := List.exists_mem_of_ne_nil _ hinserts
    have htext := Std.ExtTreeMap.mem_toList_iff_getElem?_eq_some.mp hmem
    obtain ⟨front, back, hsource, rfl⟩ := Text.isBoundary_iff.mp (h.onBoundary offset text htext)
    exact ⟨front, back, hsource, insertedAt_eq_of_getElem? htext ▸ h.nonempty _ text htext⟩

/-- Something is inserted exactly if what is rendered is not the source. -/
theorem isChanged_iff (h : overlay.Sound) :
    overlay.isChanged = true ↔ overlay.render ≠ overlay.source := by
  refine ⟨fun hchanged hsame => ?_, fun hrender => ?_⟩
  · have hlength : overlay.lead.toList.length + (overlay.weave 0 overlay.source.toList).length =
        overlay.source.toList.length := by
      rw [← congrArg (·.toList.length) hsame]
      simp [render]
    rcases lead_or_inserted h hchanged with hlead | ⟨front, back, hsource, hinserted⟩
    · have hle := overlay.length_le_weave 0 overlay.source.toList
      have hpos : 0 < overlay.lead.toList.length :=
        List.length_pos_iff.mpr (mt String.toList_eq_nil_iff.mp hlead)
      omega
    · have hinserted' : overlay.insertedAt (0 + size front) ≠ "" := by rwa [Nat.zero_add]
      have hlt := length_lt_weave back hinserted'
      rw [← hsource] at hlt
      omega
  · rw [← Bool.not_eq_false]
    intro hunchanged
    apply hrender
    rw [eq_ofSource_of_isChanged hunchanged]
    exact render_ofSource overlay.source

/-! ### Every run -/

/-- **An overlay is its plain model on every run.** Behind any calls on any source, the next
insertion is accepted exactly where the source reaches and no character straddles the offset, and
one that is refused changes nothing; what is rendered are the bytes of the plain model, whether the
insertions are found offset by offset or the source is sliced at their offsets; and the overlay
counts as changed exactly if something else than the source is rendered. -/
theorem run_refines (source : String) (edits : List Edit) :
    let overlay := (ofSource source).run edits
    (∀ offset text,
      ((∃ changed, overlay.insert offset text = .ok changed) ↔ Accepts source offset) ∧
      (¬ Accepts source offset → overlay.after (.insert offset text) = overlay)) ∧
    bytes overlay.render = plain source edits ∧
    overlay.renderSliced? = some overlay.render ∧
    (overlay.isChanged = true ↔ overlay.render ≠ source) := by
  intro overlay
  have hsource : overlay.source = source := source_run edits
  have hsound : overlay.Sound := (sound_ofSource source).run edits
  refine ⟨fun offset text => ⟨?_, fun hrefused => ?_⟩, ?_, renderSliced?_eq hsound, ?_⟩
  · rw [insert_isOk_iff, hsource]
  · exact after_insert_of_not_accepts (hsource ▸ hrefused)
  · have hlead : bytes overlay.lead = (edits.filterMap lead?).reverse.flatMap bytes := by
      rw [bytes_lead_run]
      exact List.append_nil _
    have hinserted (offset : Nat) : bytes (overlay.insertedAt offset) =
        (edits.filterMap (textAt? source offset)).flatMap bytes := by
      rw [bytes_insertedAt_run]
      simp [insertedAt, ofSource]
    rw [bytes_render hsound, hsource, hlead, plain]
    simp only [hinserted]
  · rw [isChanged_iff hsound, hsource]

/-- The second byte of the last character is no place to insert at. -/
example : ((ofSource "aé").run
    [.insert 1 "x", .prepend "b", .insert 2 "no", .insert 3 "z", .insert 1 "y"]).render =
      "baxyéz" := by
  decide

end Overlay

end WebFonts
