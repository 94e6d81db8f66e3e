import WebFonts.Proofs.FallbackTables
import WebFonts.Proofs.RecordMembers

/-!
# Values that are written as JSON and read back

What is written for a source, a weight, a face, a request, or for settings is read back as the same
value, and it stays that value when the records in it are rearranged (`decode_undoes_encode`). Two
things need care. A source is an address or a name, and what tells the two apart is only which of
the forms can be read: hence a form that is refused has to stay refused. And settings are read from
a text only if all keys of their fallbacks are generic keywords.

Each codec has two lemmas, in the order in which they use each other: `decode_encode`, and
`decode_of_variant` for a relation `Variant` that says how values of its records may be rearranged.
Values inside a number of containers are read in full only as far as nesting allows; `decode_encode`
is stated for all depths at which there is room.
-/

namespace WebFonts

open Json

/-! ### Sources -/

namespace Source

/-- The names of the members of either form of a source. -/
def names : List String :=
  ["url", "format", "tech", "name"]

/-- A source inside a number of containers is written in another way: its members are rearranged. It
is read in full before its form is known, so an added value must be one for whose containers there
is room. -/
inductive Variant (depth : Nat) : Tree → Tree → Prop where
  | object {members members' : List Member} (ending : Ending) :
    Rearranged names nothing (Tree.Readable (maxNesting - depth - 1)) members members' →
      Variant depth (.object members ending) (.object members' ending)

/-- The fields of an installed font, whose record is its name. -/
def installedFields : List (RecordField String) :=
  [.must "name" .string fun name _ => name]

theorem decodeUrl_eq_ok_iff {tree : Tree} {source : Source} :
    decodeUrl tree = .ok source ↔ ∃ address format tech,
      Record.ofObject urlFields ("", none, none) tree = .ok (address, format, tech) ∧
        source = .url address format tech := by
  rw [decodeUrl, bind_eq_ok_iff]
  constructor
  · rintro ⟨⟨address, format, tech⟩, hread, hsource⟩
    exact ⟨address, format, tech, hread, (Except.ok.inj hsource).symm⟩
  · rintro ⟨address, format, tech, hread, rfl⟩
    exact ⟨_, hread, rfl⟩

theorem decodeInstalled_eq_ok_iff {tree : Tree} {source : Source} :
    decodeInstalled tree = .ok source ↔ ∃ name,
      Record.ofObject installedFields "" tree = .ok name ∧ source = .installed name := by
  rw [decodeInstalled, installedFields]
  cases Record.ofObject _ "" tree <;> simp [Functor.map, Except.map, eq_comm]

/-- A source is the first of its forms that can be read. -/
theorem decode_eq_ok_iff {depth : Nat} {tree : Tree} {source : Source} :
    decode depth tree = .ok source ↔ tree.settle (maxNesting - depth) = .ok () ∧
      (decodeUrl tree = .ok source ∨
        (∀ other, decodeUrl tree ≠ .ok other) ∧ decodeInstalled tree = .ok source) := by
  rw [decode, bind_eq_ok_iff]
  cases decodeUrl tree <;> cases decodeInstalled tree <;>
    simp [pure, Except.pure, Unique.exists_iff]

theorem urlFields_commute : urlFields.Pairwise Record.Commute := by
  simp only [urlFields, List.pairwise_cons, List.forall_mem_cons, List.not_mem_nil,
    List.Pairwise.nil, false_imp_iff, implies_true, and_true]
  and_intros <;> exact Record.commute_of_update fun _ _ _ => rfl

theorem installedFields_commute : installedFields.Pairwise Record.Commute :=
  List.pairwise_singleton ..

/-- Members of which nothing varies are the same. -/
theorem eq_of_memberVariant_nothing {members kept : List Member}
    (h : List.Forall₂ (MemberVariant nothing) members kept) : kept = members := by
  induction h with
  | nil => rfl
  | cons hmember _ ih =>
    obtain rfl | ⟨_, _, _, hvalue⟩ := hmember
    · rw [ih]
    · exact hvalue.elim

/-- A form of a source is read alike, or refused alike, with its members rearranged. -/
theorem ofObject_eq_ok_iff_of_rearranged {ρ : Type} {fields : List (RecordField ρ)}
    {initial record : ρ} {members members' : List Member} {ending : Ending}
    {allowed : Tree → Prop}
    (hfields : fields.Pairwise Record.Commute)
    (hnames : ∀ field ∈ fields, field.name ∈ names)
    (hallowed : ∀ tree, allowed tree → tree.skip = .ok ())
    (h : Rearranged names nothing allowed members members') :
    Record.ofObject fields initial (.object members' ending) = .ok record ↔
      Record.ofObject fields initial (.object members ending) = .ok record := by
  obtain ⟨kept, added, hkept, hadded, hperm⟩ := h
  obtain rfl := eq_of_memberVariant_nothing hkept
  refine Record.ofObject_eq_ok_iff_of_perm hfields (fun member hmem => ?_)
    (fun member hmem => ?_) hperm
  · obtain ⟨name, hkey, hname, -⟩ := hadded member hmem
    refine ⟨name, hkey, Record.find?_eq_none_of_notMem fun hmem => ?_⟩
    obtain ⟨field, hfield, rfl⟩ := List.mem_map.mp hmem
    exact hname (hnames field hfield)
  · obtain ⟨-, -, -, hvalue⟩ := hadded member hmem
    exact hallowed _ hvalue

/-- A rearranged source can be read in full if the source can. -/
theorem settle_of_variant {depth : Nat} {tree tree' : Tree} (h : Variant depth tree tree')
    (hsettle : tree.settle (maxNesting - depth) = .ok ()) :
    tree'.settle (maxNesting - depth) = .ok () := by
  obtain ⟨ending, kept, added, hkept, hadded, hperm⟩ := h
  obtain rfl := eq_of_memberVariant_nothing hkept
  cases hroom : maxNesting - depth with
  | zero =>
    rw [hroom] at hsettle
    cases hsettle
  | succ room =>
    rw [hroom] at hsettle
    simp only [Tree.settle, bind_eq_ok_iff] at hsettle ⊢
    obtain ⟨_, hmembers, hending⟩ := hsettle
    rw [Tree.settleMembers_eq_ok_iff] at hmembers
    refine ⟨(), Tree.settleMembers_eq_ok_iff.mpr fun member hmem => ?_, hending⟩
    obtain hmem | hmem := List.mem_append.mp (hperm.mem_iff.mpr hmem)
    · exact hmembers member hmem
    · obtain ⟨name, hkey, -, hvalue⟩ := hadded member hmem
      rw [hroom] at hvalue
      exact ⟨⟨name, hkey⟩, hvalue.settle⟩

/-- A source that is written in another way is read alike. -/
theorem decode_of_variant {depth : Nat} {tree tree' : Tree} {source : Source}
    (h : Variant depth tree tree') (hdecode : decode depth tree = .ok source) :
    decode depth tree' = .ok source := by
  rw [decode_eq_ok_iff] at hdecode ⊢
  refine ⟨settle_of_variant h hdecode.1, ?_⟩
  have hurl (source : Source) : decodeUrl tree' = .ok source ↔ decodeUrl tree = .ok source := by
    obtain ⟨ending, hmembers⟩ := h
    simp only [decodeUrl_eq_ok_iff, ofObject_eq_ok_iff_of_rearranged urlFields_commute
      (by decide) (fun _ => Tree.Readable.skip) hmembers]
  have hinstalled :
      decodeInstalled tree' = .ok source ↔ decodeInstalled tree = .ok source := by
    obtain ⟨ending, hmembers⟩ := h
    simp only [decodeInstalled_eq_ok_iff, ofObject_eq_ok_iff_of_rearranged installedFields_commute
      (by decide) (fun _ => Tree.Readable.skip) hmembers]
  simpa only [ne_eq, hurl, hinstalled] using hdecode.2

/-- A source is read back, as an address if and only if it is one. -/
theorem decode_encode {depth : Nat} (hdepth : depth < maxNesting) (source : Source) :
    decode depth source.encode = .ok source := by
  obtain ⟨room, hroom⟩ := Nat.exists_eq_succ_of_ne_zero (Nat.sub_ne_zero_of_lt hdepth)
  rw [decode_eq_ok_iff, hroom]
  cases source with
  | url address format tech => cases format <;> cases tech <;> exact ⟨rfl, .inl rfl⟩
  | installed name =>
    have hrefused : decodeUrl (installed name).encode = .error .mismatched := rfl
    exact ⟨rfl, .inr ⟨fun other => by simp [hrefused], rfl⟩⟩

end Source

/-! ### Weights -/

namespace Weight

/-- A weight is read back, one as one and two as two. -/
theorem decode_encode {depth : Nat} (hdepth : depth < maxNesting) (weight : Weight) :
    decode depth weight.encode = .ok weight := by
  obtain ⟨room, hroom⟩ := Nat.exists_eq_succ_of_ne_zero (Nat.sub_ne_zero_of_lt hdepth)
  unfold decode
  rw [hroom]
  cases weight <;> rfl

end Weight

/-! ### Faces -/

namespace Face

/-- A face is written in another way: its members and those of its sources are rearranged. -/
def Variant (depth : Nat) : Tree → Tree → Prop :=
  Record.Variant (fields depth) (only "src" (ListVariant (Source.Variant (depth + 2))))

theorem fields_commute (depth : Nat) : (fields depth).Pairwise Record.Commute := by
  simp only [fields, List.pairwise_cons, List.forall_mem_cons, List.not_mem_nil,
    List.Pairwise.nil, false_imp_iff, implies_true, and_true]
  and_intros <;> exact Record.commute_of_update fun _ _ _ => rfl

/-- A face that is written in another way is read alike. -/
theorem decode_of_variant {depth : Nat} {tree tree' : Tree} {face : Face}
    (h : Variant depth tree tree') (hdecode : decode depth tree = .ok face) :
    decode depth tree' = .ok face := by
  refine Record.decode_of_variant (fields_commute depth) (Record.respects_only rfl ?_) h hdecode
  intro tree tree' sources hlist hread
  refine Decoder.list_of_variant ?_ hlist hread
  exact fun _ _ _ => Source.decode_of_variant

theorem decode_encode {depth : Nat} (hdepth : depth + 2 < maxNesting) (face : Face) :
    decode depth face.encode = .ok face := by
  have hsources := Decoder.list_ofList (Source.decode_encode hdepth) face.sources
  have htext (text : String) : Decoder.optional .string (.ofString text) = .ok (some text) := rfl
  have hweight (weight : Weight) :
      Decoder.optional (Weight.decode (depth + 1)) weight.encode = .ok (some weight) := by
    have hdecode := Weight.decode_encode (show depth + 1 < maxNesting by omega) weight
    cases weight <;> exact congrArg (some <$> ·) hdecode
  obtain ⟨names, hread, hsrc⟩ : ∃ names, Record.readMembers (fields depth) (Record.written (
      [("src", .ofList (face.sources.map Source.encode))] ++
        Tree.memberOf? "display" face.display ++
        (face.weight.toList.map fun weight => ("weight", weight.encode)) ++
        Tree.memberOf? "style" face.style ++
        Tree.memberOf? "stretch" face.stretch ++
        Tree.memberOf? "unicodeRange" face.unicodeRange ++
        Tree.memberOf? "featureSettings" face.featureSettings ++
        Tree.memberOf? "variationSettings" face.variationSettings)) []
      (.ofSources []) = .ok (face, names) ∧ "src" ∈ names := by
    simp only [List.append_assoc, List.cons_append, List.nil_append, Tree.memberOf?]
    rw [← List.append_nil (face.variationSettings.toList.map _),
      Record.readMembers_member rfl List.not_mem_nil hsources,
      Record.readMembers_option rfl (by simp) htext rfl,
      Record.readMembers_option rfl (by simp) hweight rfl,
      Record.readMembers_option rfl (by simp) htext rfl,
      Record.readMembers_option rfl (by simp) htext rfl,
      Record.readMembers_option rfl (by simp) htext rfl,
      Record.readMembers_option rfl (by simp) htext rfl,
      Record.readMembers_option rfl (by simp) htext rfl]
    exact ⟨_, rfl, by simp⟩
  refine Record.decode_ofMembers hread ?_
  simpa [fields, RecordField.must, RecordField.may] using hsrc

end Face

/-! ### Requests -/

namespace Request

/-- A request is written in another way: its members are rearranged. -/
def Variant : Tree → Tree → Prop :=
  Record.Variant fields nothing

theorem fields_commute : fields.Pairwise Record.Commute := by
  simp only [fields, List.pairwise_cons, List.forall_mem_cons, List.not_mem_nil,
    List.Pairwise.nil, false_imp_iff, implies_true, and_true]
  exact Record.commute_of_update fun _ _ _ => rfl

/-- A request that is written in another way is read alike. -/
theorem decode_of_variant {tree tree' : Tree} {request : Request} (h : Variant tree tree')
    (hdecode : decode tree = .ok request) : decode tree' = .ok request :=
  Record.decode_of_variant fields_commute (Record.respects_nothing fields) h hdecode

theorem decode_encode (request : Request) : decode request.encode = .ok request := by
  have hgeneric (generic : GenericFamily) :
      Decoder.optional GenericFamily.decode generic.encode = .ok (some generic) := by
    cases generic <;> rfl
  have hread : Record.readMembers fields (Record.written ([("fallbacks",
      .ofStrings request.fallbacks)] ++
        request.generic.toList.map fun generic => ("generic", generic.encode))) [] ⟨[], none⟩ =
      .ok (request, (request.generic.toList.map fun _ => "generic") ++ ["fallbacks"]) := by
    rw [List.singleton_append, ← List.append_nil (request.generic.toList.map _),
      Record.readMembers_member rfl List.not_mem_nil (Decoder.list_ofStrings _),
      Record.readMembers_option rfl (by simp) hgeneric rfl]
    rfl
  exact Record.decode_ofMembers hread (by simp [fields, RecordField.may])

end Request

/-! ### Minifier settings -/

namespace MinifySettings

/-- Minifier settings are written in another way: their members are rearranged. -/
def Variant : Tree → Tree → Prop :=
  Record.Variant fields nothing

theorem fields_commute : fields.Pairwise Record.Commute := by
  simp only [fields, List.pairwise_cons, List.forall_mem_cons, List.not_mem_nil,
    List.Pairwise.nil, false_imp_iff, implies_true, and_true]
  and_intros <;> exact Record.commute_of_update fun _ _ _ => rfl

/-- Minifier settings that are written in another way are read alike. -/
theorem decode_of_variant {tree tree' : Tree} {settings : MinifySettings} (h : Variant tree tree')
    (hdecode : decode tree = .ok settings) : decode tree' = .ok settings :=
  Record.decode_of_variant fields_commute (Record.respects_nothing fields) h hdecode

theorem decode_encode (settings : MinifySettings) : decode settings.encode = .ok settings := by
  have hcharset : Decoder.keyword Charset.ofName? (.ofString settings.charset.name) =
      .ok settings.charset := by
    cases settings.charset <;> rfl
  have hbool (value : Bool) : Decoder.bool (.ofBool value) = .ok value := rfl
  have hread : Record.readMembers fields (Record.written
      [("charset", .ofString settings.charset.name), ("targets", .ofStrings settings.targets),
        ("minifyIdentifiers", .ofBool settings.identifiers),
        ("minifySyntax", .ofBool settings.constructs),
        ("minifyWhitespace", .ofBool settings.whitespace)]) [] {} =
      .ok (settings, ["minifyWhitespace", "minifySyntax", "minifyIdentifiers", "targets",
        "charset"]) := by
    rw [Record.readMembers_member rfl (by simp) hcharset,
      Record.readMembers_member rfl (by simp) (Decoder.list_ofStrings _),
      Record.readMembers_member rfl (by simp) (hbool _),
      Record.readMembers_member rfl (by simp) (hbool _),
      Record.readMembers_member rfl (by simp) (hbool _)]
    rfl
  exact Record.decode_ofMembers hread (by simp [fields, RecordField.may])

end MinifySettings

/-! ### Settings -/

namespace Settings

/-- Settings are written in another way: their members and those of the minifier settings are
rearranged. -/
def Variant : Tree → Tree → Prop :=
  Record.Variant fields (only "minify" MinifySettings.Variant)

theorem fields_commute : fields.Pairwise Record.Commute := by
  simp only [fields, List.pairwise_cons, List.forall_mem_cons, List.not_mem_nil,
    List.Pairwise.nil, false_imp_iff, implies_true, and_true]
  and_intros <;> exact Record.commute_of_update fun _ _ _ => rfl

/-- Settings that are written in another way are read alike. -/
theorem decode_of_variant {tree tree' : Tree} {settings : Settings} (h : Variant tree tree')
    (hdecode : decode tree = .ok settings) : decode tree' = .ok settings := by
  refine Record.decode_of_variant fields_commute (Record.respects_only rfl ?_) h hdecode
  exact fun _ _ _ => MinifySettings.decode_of_variant

/-- Settings are read back if no key of their fallbacks comes twice. -/
theorem decode_encode {settings : Settings} (hnodup : (settings.fallbacks.map Prod.fst).Nodup) :
    decode settings.encode = .ok settings := by
  have hbool (value : Bool) : Decoder.bool (.ofBool value) = .ok value := rfl
  have hread : Record.readMembers fields (Record.written
      [("dev", .ofBool settings.dev), ("processCssVariables", .ofBool settings.customProperties),
        ("minify", settings.minify.encode),
        ("fallbacks", .ofMembers (settings.fallbacks.map fun entry =>
          (entry.1, .ofStrings entry.2)))]) [] {} =
      .ok (settings, ["fallbacks", "minify", "processCssVariables", "dev"]) := by
    rw [Record.readMembers_member rfl (by simp) (hbool _),
      Record.readMembers_member rfl (by simp) (hbool _),
      Record.readMembers_member rfl (by simp) (MinifySettings.decode_encode _),
      Record.readMembers_member rfl (by simp)
        (Decoder.table_ofMembers Decoder.list_ofStrings hnodup)]
    rfl
  exact Record.decode_ofMembers hread (by simp [fields, RecordField.may])

/-- A key can be read if it is a generic keyword in some case of its letters. -/
theorem isUnknown_eq_false_iff {entry : Entry} :
    isUnknown entry = false ↔
      ∃ generic : GenericFamily, Text.lower entry.1 = Text.lower generic.keyword := by
  simp only [← GenericFamily.ofKeyword?_eq_some_iff, isUnknown, Option.isNone_eq_false_iff,
    Option.isSome_iff_exists]

theorem ofText_eq_of_document {text : String} {tree : Tree}
    (htext : Document.ofText text = ⟨tree, false⟩) : Decoder.ofText decode text = decode tree := by
  rw [Decoder.ofText, htext]
  show (decode tree >>= fun value => .ok value) = _
  cases decode tree <;> rfl

variable {settings : Settings} {text text' : String} {tree tree' : Tree}

/-- Settings are read back from a text if all their keys are generic keywords. -/
theorem ofText?_eq_ok_iff_of_encode (hnodup : (settings.fallbacks.map Prod.fst).Nodup)
    (htext : Document.ofText text = ⟨settings.encode, false⟩) :
    ofText? text = .ok settings ↔ ∀ entry ∈ settings.fallbacks,
      ∃ generic : GenericFamily, Text.lower entry.1 = Text.lower generic.keyword := by
  rw [ofText?_eq_ok_iff, ofText_eq_of_document htext, List.find?_eq_none]
  simp only [decode_encode hnodup, true_and, Bool.not_eq_true, isUnknown_eq_false_iff]

/-- Settings with a key that is not a generic keyword are refused for such a key. -/
theorem ofText?_eq_error_of_encode (hnodup : (settings.fallbacks.map Prod.fst).Nodup)
    (htext : Document.ofText text = ⟨settings.encode, false⟩)
    (hkey : ¬ ∀ entry ∈ settings.fallbacks,
      ∃ generic : GenericFamily, Text.lower entry.1 = Text.lower generic.keyword) :
    ∃ entry ∈ settings.fallbacks,
      (∀ generic : GenericFamily, Text.lower entry.1 ≠ Text.lower generic.keyword) ∧
        ofText? text = .error (.unknownGeneric entry.1) := by
  have hread := ofText?_eq ((ofText_eq_of_document htext).trans (decode_encode hnodup))
  cases hfind : settings.fallbacks.find? isUnknown with
  | none =>
    rw [hfind] at hread
    exact absurd ((ofText?_eq_ok_iff_of_encode hnodup htext).mp hread) hkey
  | some entry =>
    rw [hfind] at hread
    have hunknown : ¬ isUnknown entry = false := by simpa using List.find?_some hfind
    rw [isUnknown_eq_false_iff, not_exists] at hunknown
    exact ⟨entry, List.mem_of_find?_eq_some hfind, hunknown, hread⟩

/-- A text is read as the same settings when they are written in it in another way. -/
theorem ofText?_of_variant (htext : Document.ofText text = ⟨tree, false⟩)
    (htext' : Document.ofText text' = ⟨tree', false⟩) (h : Variant tree tree')
    (hread : ofText? text = .ok settings) : ofText? text' = .ok settings := by
  rw [ofText?_eq_ok_iff, ofText_eq_of_document htext] at hread
  rw [ofText?_eq_ok_iff, ofText_eq_of_document htext']
  exact ⟨decode_of_variant h hread.1, hread.2⟩

end Settings

/-! ### All codecs -/

/-- What is written for a value is read back as that value. -/
def ReadsBack {α : Type} (decode : Decoder α) (encode : α → Tree) : Prop :=
  ∀ value, decode (encode value) = .ok value

/-- What is read as a value is read as the same value when it is written in another way. -/
def Tolerates {α : Type} (decode : Decoder α) (vary : Tree → Tree → Prop) : Prop :=
  ∀ tree tree' value, vary tree tree' → decode tree = .ok value → decode tree' = .ok value

/-- Sources, weights, faces, requests and minifier settings are read back from what is written for
them, whatever they hold. So are settings, whose fallbacks are a table in which no key comes twice;
from a text they are read back exactly if all keys are generic keywords in some case, and refused
for one of the other keys if there are any. What is read as a value is read as the same value when
the members of its records are put in another order, with members of unknown names among them. No
record is part of a weight. -/
theorem decode_undoes_encode :
    (ReadsBack (Source.decode 0) Source.encode ∧ ReadsBack (Weight.decode 0) Weight.encode ∧
      ReadsBack (Face.decode 0) Face.encode ∧ ReadsBack Request.decode Request.encode ∧
      ReadsBack MinifySettings.decode MinifySettings.encode ∧
      ∀ settings : Settings, (settings.fallbacks.map Prod.fst).Nodup →
        Settings.decode settings.encode = .ok settings ∧
        ∀ text, Document.ofText text = ⟨settings.encode, false⟩ →
          (Settings.ofText? text = .ok settings ↔ ∀ entry ∈ settings.fallbacks,
            ∃ generic : GenericFamily, Text.lower entry.1 = Text.lower generic.keyword) ∧
          ((¬ ∀ entry ∈ settings.fallbacks,
              ∃ generic : GenericFamily, Text.lower entry.1 = Text.lower generic.keyword) →
            ∃ entry ∈ settings.fallbacks,
              (∀ generic : GenericFamily, Text.lower entry.1 ≠ Text.lower generic.keyword) ∧
                Settings.ofText? text = .error (.unknownGeneric entry.1))) ∧
    Tolerates (Source.decode 0) (Source.Variant 0) ∧ Tolerates (Face.decode 0) (Face.Variant 0) ∧
    Tolerates Request.decode Request.Variant ∧
    Tolerates MinifySettings.decode MinifySettings.Variant ∧
    Tolerates Settings.decode Settings.Variant ∧
    ∀ text text' tree tree' settings, Document.ofText text = ⟨tree, false⟩ →
      Document.ofText text' = ⟨tree', false⟩ → Settings.Variant tree tree' →
      Settings.ofText? text = .ok settings → Settings.ofText? text' = .ok settings := by
  refine ⟨⟨?_, ?_, ?_, Request.decode_encode, MinifySettings.decode_encode, ?_⟩, ?_⟩
  · exact Source.decode_encode (by decide)
  · exact Weight.decode_encode (by decide)
  · exact Face.decode_encode (by decide)
  · intro settings hnodup
    refine ⟨Settings.decode_encode hnodup, fun text htext => ⟨?_, ?_⟩⟩
    · exact Settings.ofText?_eq_ok_iff_of_encode hnodup htext
    · exact Settings.ofText?_eq_error_of_encode hnodup htext
  · exact ⟨fun _ _ _ => Source.decode_of_variant, fun _ _ _ => Face.decode_of_variant,
      fun _ _ _ => Request.decode_of_variant, fun _ _ _ => MinifySettings.decode_of_variant,
      fun _ _ _ => Settings.decode_of_variant, fun _ _ _ _ _ => Settings.ofText?_of_variant⟩

set_option maxRecDepth 100000 in
/-- The tree of a text that holds settings with one list of fallbacks. -/
theorem document_of_serif :
    Document.ofText ("\x7b\"dev\":false,\"processCssVariables\":false,\"minify\":\x7b" ++
      "\"charset\":\"utf8\",\"targets\":[],\"minifyIdentifiers\":true,\"minifySyntax\":true," ++
      "\"minifyWhitespace\":true\x7d,\"fallbacks\":\x7b\"Serif\":[\"Georgia\"]\x7d\x7d") =
      ⟨Settings.encode { fallbacks := [("Serif", ["Georgia"])] }, false⟩ := by
  with_unfolding_all rfl

/-- A face with a remote and an installed font is written in another order, with a member that is
not known in it and in its first source. Settings are read back from a text with a key that is not
in lower case. -/
theorem decode_undoes_encode_of_face_and_serif :
    let face : Face := ⟨[.url "a.woff2" (some "woff2") none, .installed "Arial"], none,
      some (.range "100" "900"), none, none, none, none, none⟩
    let src : Tree := .ofList [.ofMembers [("format", .ofString "woff2"), ("terms", .ofStrings []),
      ("url", .ofString "a.woff2")], .ofMembers [("name", .ofString "Arial")]]
    let settings : Settings := { fallbacks := [("Serif", ["Georgia"])] }
    Face.decode 0 face.encode = .ok face ∧
    Face.decode 0 (.ofMembers [("weight", .ofStrings ["100", "900"]), ("id", .ofBool true),
      ("src", src)]) = .ok face ∧
    Settings.decode settings.encode = .ok settings ∧
    ∃ text, Document.ofText text = ⟨settings.encode, false⟩ ∧
      Settings.ofText? text = .ok settings := by
  intro face src settings
  obtain ⟨⟨-, -, hface, -, -, hsettings⟩, -, htolerates, -⟩ := decode_undoes_encode
  obtain ⟨hdecode, hread⟩ := hsettings settings (by simp [settings])
  have hkeys : ∀ entry ∈ settings.fallbacks,
      ∃ generic : GenericFamily, Text.lower entry.1 = Text.lower generic.keyword := by
    have hSerif := GenericFamily.ofKeyword?_eq_some_iff.mp Settings.ofKeyword?_of_tied_serif.2
    simpa [settings] using ⟨_, hSerif⟩
  have hfirst : Source.Variant 2
      (.ofMembers [("url", .ofString "a.woff2"), ("format", .ofString "woff2")])
      (.ofMembers [("format", .ofString "woff2"), ("terms", .ofStrings []),
        ("url", .ofString "a.woff2")]) := by
    refine .object .closed ⟨_, [(.ofString "terms", .ofStrings [])],
      List.forall₂_same.mpr fun _ _ => .inl rfl, ?_, ?_⟩
    · simp only [List.mem_singleton, forall_eq]
      exact ⟨"terms", rfl, by decide, rfl, rfl⟩
    · exact @List.perm_append_comm _ [(Tree.ofString "url", Tree.ofString "a.woff2")] _
  have hsrc : ListVariant (Source.Variant 2) (.ofList (face.sources.map Source.encode)) src :=
    ⟨_, _, _, rfl, rfl, .cons hfirst (.cons (.object _ (Rearranged.refl ..)) .nil)⟩
  have hvariant : Face.Variant 0 face.encode (.ofMembers [("weight", .ofStrings ["100", "900"]),
      ("id", .ofBool true), ("src", src)]) := by
    refine .object .closed ⟨[(.ofString "src", src), (.ofString "weight",
      .ofStrings ["100", "900"])], [(.ofString "id", .ofBool true)],
      .cons (.inr ⟨"src", rfl, rfl, rfl, hsrc⟩) (.cons (.inl rfl) .nil), ?_, ?_⟩
    · simp only [List.mem_singleton, forall_eq]
      exact ⟨"id", rfl, by simp [Face.fields, RecordField.must, RecordField.may], rfl⟩
    · exact @List.perm_append_comm _ [(Tree.ofString "src", src)] _
  exact ⟨hface face, htolerates _ _ _ hvariant (hface face), hdecode, _, document_of_serif,
    (hread _ document_of_serif).1.mpr hkeys⟩

end WebFonts
