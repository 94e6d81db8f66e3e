import Mathlib.Data.List.Forall2
import Mathlib.Data.List.Pairwise
import Mathlib.Data.List.Perm.Basic
import WebFonts.Font.Codec

/-!
# Records whose members are put in another order

Two objects are read as one record if they have the same members of the record's fields. What is
read does not depend on the order of the members, nor on members of other names, as long as these
can be passed over. `Record.decode_of_variant` says so for a whole record, whose fields may hold
varied values in their turn; `ofObject_eq_ok_iff_of_perm` says it also of objects that are refused,
as the forms of a value are tried one after another.

What one member does is `Reads`; two neighbours can be read in either order if the updates of their
fields commute (`exists_reads_swapped`), and `readMembers_of_perm` follows by induction on the
permutation. The last part is about what is written: `readMembers_member` and `readMembers_option`
read the members of a record back one after another, `list_ofList` and `table_ofMembers` the parts
of an array and of a table.
-/

namespace WebFonts.Json

/-- A member of an object: its key and its value. -/
abbrev Member := Tree × Tree

/-! ### Objects and arrays that vary -/

/-- A member whose value varies as its name allows, or not at all. -/
def MemberVariant (vary : String → Tree → Tree → Prop) (member member' : Member) : Prop :=
  member' = member ∨
    ∃ name, member.1.key = .ok name ∧ member'.1 = member.1 ∧ vary name member.2 member'.2

/-- The values of some members vary, members are added whose names are not known, and all are put in
some order. -/
def Rearranged (known : List String) (vary : String → Tree → Tree → Prop) (allowed : Tree → Prop)
    (members members' : List Member) : Prop :=
  ∃ kept added, List.Forall₂ (MemberVariant vary) members kept ∧
    (∀ member ∈ added, ∃ name, member.1.key = .ok name ∧ name ∉ known ∧ allowed member.2) ∧
    (kept ++ added).Perm members'

theorem Rearranged.refl (known : List String) (vary : String → Tree → Tree → Prop)
    (allowed : Tree → Prop) (members : List Member) :
    Rearranged known vary allowed members members :=
  ⟨members, [], List.forall₂_same.mpr fun _ _ => .inl rfl, nofun, by rw [List.append_nil]⟩

/-- The items of a record that is written as an array vary as the names of their fields allow. -/
inductive ItemsVariant (vary : String → Tree → Tree → Prop) :
    List String → List Tree → List Tree → Prop where
  | same (names : List String) (items : List Tree) : ItemsVariant vary names items items
  | keep {names : List String} {items items' : List Tree} (name : String) (item : Tree) :
    ItemsVariant vary names items items' →
      ItemsVariant vary (name :: names) (item :: items) (item :: items')
  | vary {names : List String} {items items' : List Tree} {name : String} {item item' : Tree} :
    vary name item item' → ItemsVariant vary names items items' →
      ItemsVariant vary (name :: names) (item :: items) (item' :: items')

/-- No value varies. -/
def nothing (_ : String) (_ _ : Tree) : Prop :=
  False

/-- Only the value of one name varies. -/
def only (name : String) (vary : Tree → Tree → Prop) (other : String) (tree tree' : Tree) : Prop :=
  other = name ∧ vary tree tree'

/-- The items of an array vary one by one. -/
def ListVariant (vary : Tree → Tree → Prop) (tree tree' : Tree) : Prop :=
  ∃ items items' ending, tree = .array items ending ∧ tree' = .array items' ending ∧
    List.Forall₂ vary items items'

/-! ### Results without fault -/

variable {α β : Type}

theorem bind_eq_ok_iff {ε : Type} {result : Except ε α} {next : α → Except ε β} {b : β} :
    (result >>= next) = .ok b ↔ ∃ a, result = .ok a ∧ next a = .ok b := by
  cases result <;> simp [bind, Except.bind]

theorem mapM_eq_ok_iff {ε : Type} {next : α → Except ε β} {items : List α} {values : List β} :
    items.mapM next = .ok values ↔
      List.Forall₂ (fun item value => next item = .ok value) items values := by
  induction items generalizing values with
  | nil => cases values <;> simp [pure, Except.pure]
  | cons item rest ih =>
    simp only [List.mapM_cons, bind_eq_ok_iff, ih]
    constructor
    · rintro ⟨value, hvalue, more, hmore, hvalues⟩
      cases hvalues
      exact .cons hvalue hmore
    · rintro (_ | ⟨hvalue, hmore⟩)
      exact ⟨_, hvalue, _, hmore, rfl⟩

/-! ### Trees that are read in full -/

/-- A JSON value without fault, in which at most `room` containers are nested in each other. -/
structure Tree.Readable (room : Nat) (tree : Tree) : Prop where
  settle : tree.settle room = .ok ()
  skip : tree.skip = .ok ()

/-- Members are read in full, one by one. -/
theorem Tree.settleMembers_eq_ok_iff {room : Nat} {members : List Member} :
    Tree.settleMembers room members = .ok () ↔
      ∀ member ∈ members, (∃ name, member.1.key = .ok name) ∧
        Tree.settle room member.2 = .ok () := by
  induction members with
  | nil => simp [Tree.settleMembers]
  | cons member rest ih =>
    simp only [Tree.settleMembers, bind_eq_ok_iff, List.forall_mem_cons, ← ih]
    constructor
    · rintro ⟨name, hkey, _, hvalue, hrest⟩
      exact ⟨⟨⟨name, hkey⟩, hvalue⟩, hrest⟩
    · rintro ⟨⟨⟨name, hkey⟩, hvalue⟩, hrest⟩
      exact ⟨name, hkey, (), hvalue, hrest⟩

/-- An array is read alike if its items are. -/
theorem Decoder.list_of_variant {item : Decoder α} {vary : Tree → Tree → Prop}
    (hitem : ∀ tree tree' value, vary tree tree' → item tree = .ok value →
      item tree' = .ok value)
    {tree tree' : Tree} {values : List α} (h : ListVariant vary tree tree')
    (hread : Decoder.list item tree = .ok values) : Decoder.list item tree' = .ok values := by
  obtain ⟨items, items', ending, rfl, rfl, hitems⟩ := h
  have hmapM {found : List α} (hfound : items.mapM item = .ok found) :
      items'.mapM item = .ok found := by
    rw [mapM_eq_ok_iff] at hfound ⊢
    clear hread
    induction hitems generalizing found with
    | nil =>
      cases hfound
      exact .nil
    | cons hvary _ ih =>
      cases hfound with
      | cons hvalue hmore => exact .cons (hitem _ _ _ hvary hvalue) (ih hmore)
  simp only [Decoder.list, bind_eq_ok_iff] at hread ⊢
  obtain ⟨found, hfound, hending⟩ := hread
  exact ⟨found, hmapM hfound, hending⟩

namespace Record

variable {ρ : Type} {fields : List (RecordField ρ)} {member first second : Member}
  {members members' rest added : List Member} {seen seen' names names' : List String}
  {record record' initial : ρ} {ending : Ending}

/-! ### Reading one member -/

/-- A member is read into a record, and the names of the fields read so far go from `seen` to
`seen'`. -/
def Reads (fields : List (RecordField ρ)) (member : Member) (seen : List String) (record : ρ)
    (seen' : List String) (record' : ρ) : Prop :=
  ∃ name, member.1.key = .ok name ∧
    match fields.find? (·.name == name) with
    | none => member.2.skip = .ok () ∧ seen' = seen ∧ record' = record
    | some field =>
      name ∉ seen ∧ field.read member.2 record = .ok record' ∧ seen' = name :: seen

theorem readMembers_cons_eq_ok_iff {result : ρ × List String} :
    readMembers fields (member :: rest) seen record = .ok result ↔
      ∃ seen' record', Reads fields member seen record seen' record' ∧
        readMembers fields rest seen' record' = .ok result := by
  obtain ⟨key, value⟩ := member
  simp only [Reads, readMembers, bind_eq_ok_iff]
  constructor
  · rintro ⟨name, hkey, h⟩
    cases hfind : fields.find? (·.name == name) with
    | none =>
      simp only [hfind, bind_eq_ok_iff] at h
      obtain ⟨_, hskip, h⟩ := h
      exact ⟨seen, record, ⟨name, hkey, by rw [hfind]; exact ⟨hskip, rfl, rfl⟩⟩, h⟩
    | some field =>
      simp only [hfind] at h
      split at h
      · cases h
      · rename_i hseen
        obtain ⟨record', hread, h⟩ := bind_eq_ok_iff.mp h
        refine ⟨name :: seen, record', ⟨name, hkey, ?_⟩, h⟩
        rw [hfind]
        exact ⟨by simpa using hseen, hread, rfl⟩
  · rintro ⟨seen', record', ⟨name, hkey, hmember⟩, h⟩
    refine ⟨name, hkey, ?_⟩
    cases hfind : fields.find? (·.name == name) with
    | none =>
      simp only [hfind] at hmember ⊢
      obtain ⟨hskip, rfl, rfl⟩ := hmember
      exact bind_eq_ok_iff.mpr ⟨(), hskip, h⟩
    | some field =>
      simp only [hfind] at hmember ⊢
      obtain ⟨hseen, hread, rfl⟩ := hmember
      rw [if_neg (by simpa using hseen)]
      exact bind_eq_ok_iff.mpr ⟨record', hread, h⟩

/-- A member of a name that no field has is passed over. -/
theorem reads_iff_of_unknown {name : String} (hkey : member.1.key = .ok name)
    (hfind : fields.find? (·.name == name) = none) :
    Reads fields member seen record seen' record' ↔
      member.2.skip = .ok () ∧ seen' = seen ∧ record' = record := by
  constructor
  · rintro ⟨name', hkey', hmember⟩
    obtain rfl : name = name' := Except.ok.inj (hkey.symm.trans hkey')
    rwa [hfind] at hmember
  · intro h
    exact ⟨name, hkey, by rwa [hfind]⟩

/-- A member of a field is read into it, once. -/
theorem reads_iff_of_field {name : String} {field : RecordField ρ} (hkey : member.1.key = .ok name)
    (hfind : fields.find? (·.name == name) = some field) :
    Reads fields member seen record seen' record' ↔
      name ∉ seen ∧ field.read member.2 record = .ok record' ∧ seen' = name :: seen := by
  constructor
  · rintro ⟨name', hkey', hmember⟩
    obtain rfl : name = name' := Except.ok.inj (hkey.symm.trans hkey')
    rwa [hfind] at hmember
  · intro h
    exact ⟨name, hkey, by rwa [hfind]⟩

/-- The order of the names that were read before makes no difference. -/
theorem Reads.of_perm (h : Reads fields member seen record seen' record')
    (hperm : seen.Perm names) :
    ∃ names', Reads fields member names record names' record' ∧ seen'.Perm names' := by
  obtain ⟨name, hkey, -⟩ := id h
  cases hfind : fields.find? (·.name == name) with
  | none =>
    obtain ⟨hskip, rfl, rfl⟩ := (reads_iff_of_unknown hkey hfind).mp h
    exact ⟨names, (reads_iff_of_unknown hkey hfind).mpr ⟨hskip, rfl, rfl⟩, hperm⟩
  | some field =>
    obtain ⟨hseen, hread, rfl⟩ := (reads_iff_of_field hkey hfind).mp h
    exact ⟨name :: names, (reads_iff_of_field hkey hfind).mpr
      ⟨hperm.mem_iff.not.mp hseen, hread, rfl⟩, hperm.cons name⟩

/-! ### Members in another order -/

/-- Two fields can be read in either order. -/
def Commute (first second : RecordField ρ) : Prop :=
  ∀ tree tree' record result,
    (first.read tree record >>= second.read tree') = .ok result ↔
      (second.read tree' record >>= first.read tree) = .ok result

instance : Std.Symm (@Commute ρ) where
  symm _ _ h tree tree' record result := (h tree' tree record result).symm

/-- Fields that update different parts of a record can be read in either order. -/
theorem commute_of_update {value : Decoder α} {other : Decoder β} {set : α → ρ → ρ}
    {put : β → ρ → ρ} {name name' : String} {required required' : Bool}
    (h : ∀ a b record, put b (set a record) = set a (put b record)) :
    Commute ⟨name, required, fun tree record => do return set (← value tree) record⟩
      ⟨name', required', fun tree record => do return put (← other tree) record⟩ := by
  intro tree tree' record result
  simp only [bind_eq_ok_iff]
  constructor
  · rintro ⟨_, ⟨a, ha, hset⟩, b, hb, hput⟩
    cases hset
    cases hput
    exact ⟨_, ⟨b, hb, rfl⟩, a, ha, by rw [h]; rfl⟩
  · rintro ⟨_, ⟨b, hb, hput⟩, a, ha, hset⟩
    cases hput
    cases hset
    exact ⟨_, ⟨a, ha, rfl⟩, b, hb, by rw [← h]; rfl⟩

/-- Two neighbouring members can be read in either order. -/
theorem exists_reads_swapped (hfields : fields.Pairwise Commute) {middle : List String}
    {half : ρ} (hfirst : Reads fields first seen record middle half)
    (hsecond : Reads fields second middle half seen' record') :
    ∃ middle' half' names, Reads fields second seen record middle' half' ∧
      Reads fields first middle' half' names record' ∧ seen'.Perm names := by
  obtain ⟨name, hkey, -⟩ := id hfirst
  obtain ⟨name', hkey', -⟩ := id hsecond
  cases hfind : fields.find? (·.name == name) with
  | none =>
    obtain ⟨hskip, rfl, rfl⟩ := (reads_iff_of_unknown hkey hfind).mp hfirst
    exact ⟨seen', record', seen', hsecond,
      (reads_iff_of_unknown hkey hfind).mpr ⟨hskip, rfl, rfl⟩, .refl _⟩
  | some field =>
    obtain ⟨hseen, hread, rfl⟩ := (reads_iff_of_field hkey hfind).mp hfirst
    cases hfind' : fields.find? (·.name == name') with
    | none =>
      obtain ⟨hskip, rfl, rfl⟩ := (reads_iff_of_unknown hkey' hfind').mp hsecond
      exact ⟨seen, record, name :: seen,
        (reads_iff_of_unknown hkey' hfind').mpr ⟨hskip, rfl, rfl⟩, hfirst, .refl _⟩
    | some field' =>
      obtain ⟨hseen', hread', rfl⟩ := (reads_iff_of_field hkey' hfind').mp hsecond
      rw [List.mem_cons, not_or] at hseen'
      have hname : field.name = name := by simpa using List.find?_some hfind
      have hname' : field'.name = name' := by simpa using List.find?_some hfind'
      have hne : field ≠ field' := fun heq => hseen'.1 (by rw [← hname, ← hname', heq])
      have hcommute : Commute field field' := hfields.forall
        (List.mem_of_find?_eq_some hfind) (List.mem_of_find?_eq_some hfind') hne
      obtain ⟨half', hhalf, hboth⟩ := bind_eq_ok_iff.mp
        ((hcommute _ _ _ _).mp (bind_eq_ok_iff.mpr ⟨half, hread, hread'⟩))
      refine ⟨name' :: seen, half', name :: name' :: seen,
        (reads_iff_of_field hkey' hfind').mpr ⟨hseen'.2, hhalf, rfl⟩,
        (reads_iff_of_field hkey hfind).mpr ⟨?_, hboth, rfl⟩, List.Perm.swap ..⟩
      rw [List.mem_cons, not_or]
      exact ⟨Ne.symm hseen'.1, hseen⟩

/-- Members can be read behind any order of the names that were read before. -/
theorem readMembers_of_perm_seen (hseen : seen.Perm seen')
    (h : readMembers fields members seen record = .ok (record', names)) :
    ∃ names', readMembers fields members seen' record = .ok (record', names') ∧
      names.Perm names' := by
  induction members generalizing seen seen' record with
  | nil =>
    cases h
    exact ⟨seen', rfl, hseen⟩
  | cons member rest ih =>
    obtain ⟨behind, half, hmember, hread⟩ := readMembers_cons_eq_ok_iff.mp h
    obtain ⟨behind', hmember', hbehind⟩ := hmember.of_perm hseen
    obtain ⟨names', hread', hnames⟩ := ih hbehind hread
    exact ⟨names', readMembers_cons_eq_ok_iff.mpr ⟨behind', half, hmember', hread'⟩, hnames⟩

/-- Members can be read in any order. -/
theorem readMembers_of_perm (hfields : fields.Pairwise Commute) (hperm : members.Perm members')
    (h : readMembers fields members seen record = .ok (record', names)) :
    ∃ names', readMembers fields members' seen record = .ok (record', names') ∧
      names.Perm names' := by
  induction hperm generalizing seen record names with
  | nil => exact ⟨names, h, .refl _⟩
  | cons member hrest ih =>
    obtain ⟨behind, half, hmember, hread⟩ := readMembers_cons_eq_ok_iff.mp h
    obtain ⟨names', hread', hnames⟩ := ih hread
    exact ⟨names', readMembers_cons_eq_ok_iff.mpr ⟨behind, half, hmember, hread'⟩, hnames⟩
  | swap second first rest =>
    obtain ⟨middle, half, hfirst, h⟩ := readMembers_cons_eq_ok_iff.mp h
    obtain ⟨behind, both, hsecond, h⟩ := readMembers_cons_eq_ok_iff.mp h
    obtain ⟨middle', half', behind', hsecond', hfirst', hbehind⟩ :=
      exists_reads_swapped hfields hfirst hsecond
    obtain ⟨names', hread', hnames⟩ := readMembers_of_perm_seen hbehind h
    exact ⟨names', readMembers_cons_eq_ok_iff.mpr ⟨middle', half', hsecond',
      readMembers_cons_eq_ok_iff.mpr ⟨behind', both, hfirst', hread'⟩⟩, hnames⟩
  | trans _ _ ih ih' =>
    obtain ⟨middle, hmiddle, hnames⟩ := ih h
    obtain ⟨names', hlast, hnames'⟩ := ih' hmiddle
    exact ⟨names', hlast, hnames.trans hnames'⟩

/-! ### Members of other names -/

theorem readMembers_append_eq_ok_iff {result : ρ × List String} :
    readMembers fields (members ++ rest) seen record = .ok result ↔
      ∃ record' seen', readMembers fields members seen record = .ok (record', seen') ∧
        readMembers fields rest seen' record' = .ok result := by
  induction members generalizing seen record with
  | nil => simp [readMembers]
  | cons member members ih =>
    simp only [List.cons_append, readMembers_cons_eq_ok_iff, ih]
    constructor
    · rintro ⟨seen', record', hmember, last, names, hread, hrest⟩
      exact ⟨last, names, ⟨seen', record', hmember, hread⟩, hrest⟩
    · rintro ⟨last, names, ⟨seen', record', hmember, hread⟩, hrest⟩
      exact ⟨seen', record', hmember, last, names, hread, hrest⟩

/-- Members that no field has the names of are passed over. -/
theorem readMembers_eq_ok_iff_of_unknown {result : ρ × List String}
    (hadded : ∀ member ∈ added, ∃ name, member.1.key = .ok name ∧
      fields.find? (·.name == name) = none) :
    readMembers fields added seen record = .ok result ↔
      (∀ member ∈ added, member.2.skip = .ok ()) ∧ result = (record, seen) := by
  induction added with
  | nil => simp [readMembers, eq_comm]
  | cons member rest ih =>
    rw [List.forall_mem_cons] at hadded
    obtain ⟨⟨name, hkey, hfind⟩, hrest⟩ := hadded
    simp only [readMembers_cons_eq_ok_iff, reads_iff_of_unknown hkey hfind, List.forall_mem_cons]
    constructor
    · rintro ⟨seen', record', ⟨hskip, rfl, rfl⟩, h⟩
      exact ⟨⟨hskip, ((ih hrest).mp h).1⟩, ((ih hrest).mp h).2⟩
    · rintro ⟨⟨hskip, hall⟩, hresult⟩
      exact ⟨seen, record, ⟨hskip, rfl, rfl⟩, (ih hrest).mpr ⟨hall, hresult⟩⟩

/-! ### Objects -/

theorem ofObject_eq_ok_iff :
    ofObject fields initial (.object members ending) = .ok record ↔
      ∃ names, readMembers fields members [] initial = .ok (record, names) ∧
        ending.check = .ok () ∧ ∀ field ∈ fields, field.required = true → field.name ∈ names := by
  simp only [ofObject, bind_eq_ok_iff]
  constructor
  · rintro ⟨⟨last, names⟩, hread, _, hending, h⟩
    split at h
    · cases h
      exact ⟨names, hread, hending, by grind⟩
    · cases h
  · rintro ⟨names, hread, hending, hall⟩
    exact ⟨(record, names), hread, (), hending, if_pos (by grind)⟩

/-- An object is read alike, or refused alike, with its members in another order and with others
among them that can be passed over. -/
theorem ofObject_eq_ok_iff_of_perm {kept : List Member} (hfields : fields.Pairwise Commute)
    (hadded : ∀ member ∈ added, ∃ name, member.1.key = .ok name ∧
      fields.find? (·.name == name) = none)
    (hskip : ∀ member ∈ added, member.2.skip = .ok ()) (hperm : (kept ++ added).Perm members') :
    ofObject fields initial (.object members' ending) = .ok record ↔
      ofObject fields initial (.object kept ending) = .ok record := by
  simp only [ofObject_eq_ok_iff]
  constructor
  · rintro ⟨names, hread, hending, hall⟩
    obtain ⟨names', hread', hnames⟩ := readMembers_of_perm hfields hperm.symm hread
    obtain ⟨last, behind, hkept, hrest⟩ := readMembers_append_eq_ok_iff.mp hread'
    obtain ⟨-, hresult⟩ := (readMembers_eq_ok_iff_of_unknown hadded).mp hrest
    cases hresult
    exact ⟨names', hkept, hending, fun field hfield hrequired =>
      hnames.mem_iff.mp (hall field hfield hrequired)⟩
  · rintro ⟨names, hread, hending, hall⟩
    have hboth := readMembers_append_eq_ok_iff.mpr ⟨record, names, hread,
      (readMembers_eq_ok_iff_of_unknown hadded).mpr ⟨hskip, rfl⟩⟩
    obtain ⟨names', hread', hnames⟩ := readMembers_of_perm hfields hperm hboth
    exact ⟨names', hread', hending, fun field hfield hrequired =>
      hnames.mem_iff.mp (hall field hfield hrequired)⟩

/-! ### Records with varied values -/

/-- Varied values of a field are read alike. -/
def Absorbs (vary : String → Tree → Tree → Prop) (field : RecordField ρ) : Prop :=
  ∀ tree tree' record record', vary field.name tree tree' →
    field.read tree record = .ok record' → field.read tree' record = .ok record'

/-- Only values of fields vary, and each field reads its varied values alike. -/
structure Respects (fields : List (RecordField ρ)) (vary : String → Tree → Tree → Prop) : Prop where
  isField : ∀ {name : String} {tree tree' : Tree}, vary name tree tree' →
    name ∈ fields.map (·.name)
  absorbs : ∀ field ∈ fields, Absorbs vary field

theorem respects_nothing (fields : List (RecordField ρ)) : Respects fields nothing :=
  ⟨False.elim, fun _ _ _ _ _ _ h => h.elim⟩

/-- Only the value of one field varies, and its decoder reads varied values alike. -/
theorem respects_only {name : String} {required : Bool} {value : Decoder α} {set : α → ρ → ρ}
    {inner : Tree → Tree → Prop}
    (hfield : fields.filter (·.name == name) =
      [⟨name, required, fun tree record => do return set (← value tree) record⟩])
    (hinner : ∀ tree tree' a, inner tree tree' → value tree = .ok a → value tree' = .ok a) :
    Respects fields (only name inner) where
  isField h := by
    have hmem : (⟨name, required, fun tree record => do return set (← value tree) record⟩ :
        RecordField ρ) ∈ fields.filter (·.name == name) := by
      rw [hfield]
      exact List.mem_singleton_self _
    exact List.mem_map.mpr ⟨_, (List.mem_filter.mp hmem).1, h.1.symm⟩
  absorbs field hmem tree tree' record record' h hread := by
    have hfield : field ∈ fields.filter (·.name == name) :=
      List.mem_filter.mpr ⟨hmem, by simpa using h.1⟩
    rw [‹fields.filter _ = _›, List.mem_singleton] at hfield
    subst hfield
    obtain ⟨a, ha, hset⟩ := bind_eq_ok_iff.mp hread
    exact bind_eq_ok_iff.mpr ⟨a, hinner _ _ _ h.2 ha, hset⟩

variable {vary : String → Tree → Tree → Prop}

/-- The name of no field is found. -/
theorem find?_eq_none_of_notMem {name : String} (h : name ∉ fields.map (·.name)) :
    fields.find? (·.name == name) = none := by
  rw [List.find?_eq_none]
  rintro field hfield hname
  exact h (List.mem_map.mpr ⟨field, hfield, by simpa using hname⟩)

/-- A member with a varied value is read alike. -/
theorem Reads.of_variant {member' : Member} (hvary : Respects fields vary)
    (hmember : MemberVariant vary member member')
    (h : Reads fields member seen record seen' record') :
    Reads fields member' seen record seen' record' := by
  obtain rfl | ⟨name, hkey, hsame, hvalue⟩ := hmember
  · exact h
  · have hkey' : member'.1.key = .ok name := by rw [hsame, hkey]
    cases hfind : fields.find? (·.name == name) with
    | none =>
      obtain ⟨field, hfield, hname⟩ := List.mem_map.mp (hvary.isField hvalue)
      simpa [hname] using List.find?_eq_none.mp hfind field hfield
    | some field =>
      obtain rfl : field.name = name := by simpa using List.find?_some hfind
      obtain ⟨hseen, hread, hnames⟩ := (reads_iff_of_field hkey hfind).mp h
      exact (reads_iff_of_field hkey' hfind).mpr
        ⟨hseen, hvary.absorbs _ (List.mem_of_find?_eq_some hfind) _ _ _ _ hvalue hread, hnames⟩

theorem readMembers_of_variant (hvary : Respects fields vary)
    (hmembers : List.Forall₂ (MemberVariant vary) members members')
    {result : ρ × List String} (h : readMembers fields members seen record = .ok result) :
    readMembers fields members' seen record = .ok result := by
  induction hmembers generalizing seen record with
  | nil => exact h
  | cons hmember _ ih =>
    obtain ⟨seen', record', hread, hrest⟩ := readMembers_cons_eq_ok_iff.mp h
    exact readMembers_cons_eq_ok_iff.mpr
      ⟨seen', record', hread.of_variant hvary hmember, ih hrest⟩

theorem readItems_of_variant {items items' : List Tree} {names : List String}
    (hvary : ∀ field ∈ fields, Absorbs vary field)
    (hnames : names = fields.map (·.name)) (hitems : ItemsVariant vary names items items')
    (h : readItems fields items ending record = .ok record') :
    readItems fields items' ending record = .ok record' := by
  induction hitems generalizing fields record with
  | same => exact h
  | keep name item _ ih =>
    cases fields with
    | nil => cases hnames
    | cons field fields =>
      rw [List.map_cons, List.cons.injEq] at hnames
      rw [readItems, bind_eq_ok_iff] at h ⊢
      obtain ⟨next, hread, hrest⟩ := h
      exact ⟨next, hread, ih (List.forall_mem_cons.mp hvary).2 hnames.2 hrest⟩
  | vary hitem _ ih =>
    cases fields with
    | nil => cases hnames
    | cons field fields =>
      rw [List.map_cons, List.cons.injEq] at hnames
      obtain ⟨rfl, hnames⟩ := hnames
      rw [readItems, bind_eq_ok_iff] at h ⊢
      obtain ⟨next, hread, hrest⟩ := h
      rw [List.forall_mem_cons] at hvary
      exact ⟨next, hvary.1 _ _ _ _ hitem hread, ih hvary.2 hnames hrest⟩

/-- A record is written in another way: as an object with its members rearranged, or as an array,
with varied values in either case. Added members have to be such that can be passed over. -/
inductive Variant (fields : List (RecordField ρ)) (vary : String → Tree → Tree → Prop) :
    Tree → Tree → Prop where
  | object {members members' : List Member} (ending : Ending) :
    Rearranged (fields.map (·.name)) vary (·.skip = .ok ()) members members' →
      Variant fields vary (.object members ending) (.object members' ending)
  | array {items items' : List Tree} (ending : Ending) :
    ItemsVariant vary (fields.map (·.name)) items items' →
      Variant fields vary (.array items ending) (.array items' ending)

/-- A record that is written in another way is read alike. -/
theorem decode_of_variant (hfields : fields.Pairwise Commute) (hvary : Respects fields vary)
    {tree tree' : Tree} (h : Variant fields vary tree tree')
    (hdecode : decode fields initial tree = .ok record) :
    decode fields initial tree' = .ok record := by
  cases h with
  | object ending hmembers =>
    obtain ⟨kept, added, hkept, hadded, hperm⟩ := hmembers
    have hunknown : ∀ member ∈ added, ∃ name, member.1.key = .ok name ∧
        fields.find? (·.name == name) = none := fun member hmem => by
      obtain ⟨name, hkey, hname, -⟩ := hadded member hmem
      exact ⟨name, hkey, find?_eq_none_of_notMem hname⟩
    have hskip : ∀ member ∈ added, member.2.skip = .ok () := fun member hmem => by
      obtain ⟨-, -, -, hskip⟩ := hadded member hmem
      exact hskip
    refine (ofObject_eq_ok_iff_of_perm hfields hunknown hskip hperm).mpr ?_
    obtain ⟨names, hread, hrest⟩ := ofObject_eq_ok_iff.mp hdecode
    exact ofObject_eq_ok_iff.mpr ⟨names, readMembers_of_variant hvary hkept hread, hrest⟩
  | array ending hitems => exact readItems_of_variant hvary.absorbs rfl hitems hdecode

/-! ### Objects that are written -/

/-- The members of an object that is written. -/
def written (entries : List (String × Tree)) : List Member :=
  entries.map fun (name, value) => (.ofString name, value)

/-- A member that is written is read into its field. -/
theorem readMembers_member {name : String} {tree : Tree} {required : Bool} {value : Decoder α}
    {set : α → ρ → ρ} {a : α}
    (hfind : fields.find? (·.name == name) =
      some ⟨name, required, fun tree record => do return set (← value tree) record⟩)
    (hseen : name ∉ seen) (hread : value tree = .ok a) (entries : List (String × Tree)) :
    readMembers fields (written ((name, tree) :: entries)) seen record =
      readMembers fields (written entries) (name :: seen) (set a record) := by
  have hkey : (Tree.ofString name).key = .ok name := rfl
  rw [written, List.map_cons, readMembers, hkey]
  show (match fields.find? (·.name == name) with | none => _ | some field => _) = _
  rw [hfind]
  show (if seen.contains name then _ else _) = _
  rw [if_neg (by simpa using hseen)]
  simp only [hread]
  rfl

/-- A member that is written if there is a value is read into its field if it is there. -/
theorem readMembers_option {name : String} {encode : α → Tree} {required : Bool}
    {value : Decoder (Option α)} {set : Option α → ρ → ρ}
    (hfind : fields.find? (·.name == name) =
      some ⟨name, required, fun tree record => do return set (← value tree) record⟩)
    (hseen : name ∉ seen) (hread : ∀ a, value (encode a) = .ok (some a))
    (hnone : set none record = record) (found : Option α) (entries : List (String × Tree)) :
    readMembers fields (written ((found.toList.map fun a => (name, encode a)) ++ entries)) seen
        record =
      readMembers fields (written entries) ((found.toList.map fun _ => name) ++ seen)
        (set found record) := by
  cases found with
  | none =>
    rw [hnone]
    rfl
  | some a => exact readMembers_member hfind hseen (hread a) entries

/-- A record is read from an object that is written, if its members are. -/
theorem decode_ofMembers {entries : List (String × Tree)}
    (hread : readMembers fields (written entries) [] initial = .ok (record, names))
    (hrequired : ∀ field ∈ fields, field.required = true → field.name ∈ names) :
    decode fields initial (.ofMembers entries) = .ok record :=
  ofObject_eq_ok_iff.mpr ⟨names, hread, rfl, hrequired⟩

end Record

/-! ### Arrays and tables that are written -/

namespace Decoder

/-- The items of an array are read back if each of them is. -/
theorem list_ofList {item : Decoder α} {encode : α → Tree} (h : ∀ a, item (encode a) = .ok a)
    (values : List α) : list item (.ofList (values.map encode)) = .ok values := by
  have hmapM : (values.map encode).mapM item = .ok values :=
    mapM_eq_ok_iff.mpr (List.forall₂_map_left_iff.mpr
      (List.forall₂_same.mpr fun a _ => h a))
  simp only [list, Tree.ofList, hmapM]
  rfl

theorem list_ofStrings (texts : List String) : list string (.ofStrings texts) = .ok texts := by
  have htext (text : String) : string (.ofString text) = .ok text := rfl
  exact list_ofList htext texts

/-- Entries whose keys come once are all kept, in their order. -/
theorem foldl_of_nodup {entries table : List (String × α)}
    (hnodup : ((table ++ entries).map Prod.fst).Nodup) :
    entries.foldl (fun table (name, value) =>
      if table.any (·.1 == name) then
        table.map fun entry => if entry.1 == name then (name, value) else entry
      else table ++ [(name, value)]) table = table ++ entries := by
  induction entries generalizing table with
  | nil => rw [List.foldl_nil, List.append_nil]
  | cons entry rest ih =>
    have hnew : table.any (·.1 == entry.1) = false := by
      simp only [List.map_append, List.map_cons, List.nodup_append, List.mem_map] at hnodup
      simp only [List.any_eq_false, beq_iff_eq]
      exact fun other hmem heq =>
        hnodup.2.2 _ ⟨other, hmem, rfl⟩ _ List.mem_cons_self heq
    rw [List.foldl_cons]
    simp only [hnew, Bool.false_eq_true, if_false]
    rw [ih (by simpa using hnodup), List.append_assoc, List.singleton_append]

/-- A table is read back if each of its values is and no key comes twice. -/
theorem table_ofMembers {value : Decoder α} {encode : α → Tree}
    (h : ∀ a, value (encode a) = .ok a) {entries : List (String × α)}
    (hnodup : (entries.map Prod.fst).Nodup) :
    table value (.ofMembers (entries.map fun entry => (entry.1, encode entry.2))) =
      .ok entries := by
  have hmember (entry : String × α) : (do
      let name ← (Tree.ofString entry.1).key
      return (name, ← value (encode entry.2))) = Except.ok (entry.1, entry.2) := by
    rw [h]
    rfl
  rw [Tree.ofMembers, List.map_map]
  refine bind_eq_ok_iff.mpr ⟨entries, ?_, ?_⟩
  · rw [mapM_eq_ok_iff, List.forall₂_map_left_iff]
    exact List.forall₂_same.mpr fun entry _ => hmember entry
  · show Except.ok (entries.foldl _ []) = _
    rw [foldl_of_nodup (by simpa using hnodup), List.nil_append]

end Decoder

end WebFonts.Json
