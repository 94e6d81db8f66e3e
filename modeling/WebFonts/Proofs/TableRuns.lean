import Mathlib.Data.Finset.Card
import WebFonts.Proofs.FallbackTables

/-!
# What a run of calls finds in a table of families

A table is built first: the usual local fonts are set or not, then those of some settings, then
those of a list. After that, families are entered and looked up in any order. `lookUp_run_build`
says what a run leaves in such a table. A name is found if and only if a family was entered under it
in some case of its letters; then the last of these families is found. Its fallbacks are its own,
else those of the request, else the local fonts that were set last for the generic family of the
request; these may be none.

Of the lists that are set while a table is built, the last one for a generic family counts
(`setAll_eq_lastSet`), and the entries of settings may come in any order if no two keys differ only
in case (`lastSet?_of_perm`). One call is described by `families_after`; by induction from the end
of a run, a table has the last family under each name (`getElem?_families_run`), and as many names
as were used (`size_run`).
-/

namespace WebFonts

namespace FontTable

/-! ### Building a table -/

/-- Local fonts that are set for a generic family. -/
abbrev Setting := GenericFamily × List String

/-- The lists of local fonts that are set while a table is built, in the order in which this is
done. Keys of the settings that cannot be read are passed over. -/
def settingsMade (usual : Bool) (settings : Settings) (more : List Setting) : List Setting :=
  (if usual then GenericFamily.usual else []) ++ settings.fallbacks.filterMap Settings.known? ++
    more

/-- The list that was set last for a generic family. -/
def lastSet? (made : List Setting) (generic : GenericFamily) : Option (List String) :=
  ((made.filter (·.1 = generic)).getLast?).map (·.2)

/-- The table that is built from the usual local fonts or none, from settings, and from further
lists. -/
def build (usual : Bool) (settings : Settings) (more : List Setting) :
    Except SettingsFault FontTable := do
  let table ← settings.configure (if usual then empty.setUsual else empty)
  return table.setAll more

variable {usual : Bool} {settings : Settings} {more made : List Setting}
  {generic : GenericFamily}

theorem lastSet?_append (made later : List Setting) (generic : GenericFamily) :
    lastSet? (made ++ later) generic = (lastSet? later generic).or (lastSet? made generic) := by
  rw [lastSet?, List.filter_append, List.getLast?_append, Option.map_or]
  rfl

/-- A table has the list that was set last for a generic family, else the one it had before. -/
theorem setAll_eq_lastSet (made : List Setting) (table : FontTable) :
    table.setAll made = ⟨table.families, fun generic =>
      (lastSet? made generic).getD (table.standIns generic)⟩ :=
  Settings.setAll_eq made table

/-- A table that is built has no families yet, and for each generic family the list that was set
last. -/
theorem build_eq_ok (hknown : settings.fallbacks.find? Settings.isUnknown = none) :
    build usual settings more =
      .ok ⟨∅, fun generic => (lastSet? (settingsMade usual settings more) generic).getD []⟩ := by
  have hstart : (if usual then empty.setUsual else empty) =
      empty.setAll (if usual then GenericFamily.usual else []) := by
    cases usual <;> rfl
  rw [build, hstart, Settings.configure_eq_ok_iff.mpr ⟨hknown, rfl⟩]
  show Except.ok (setAll more _) = _
  simp only [setAll_eq_lastSet, settingsMade, lastSet?_append]
  refine congrArg Except.ok (congrArg (mk ∅) (funext fun generic => ?_))
  show (lastSet? more generic).getD ((lastSet? _ generic).getD ((lastSet? _ generic).getD [])) = _
  cases lastSet? more generic <;>
    cases lastSet? (settings.fallbacks.filterMap Settings.known?) generic <;> rfl

/-- If no two keys of the settings differ only in case, their entries may come in any order. -/
theorem lastSet?_of_perm {order : List Settings.Entry}
    (hdistinct : (settings.fallbacks.map fun entry => Text.lower entry.1).Nodup)
    (horder : order.Perm settings.fallbacks) :
    lastSet? (settingsMade usual { settings with fallbacks := order } more) generic =
      lastSet? (settingsMade usual settings more) generic := by
  have hagree : Settings.Agree settings.fallbacks generic := by
    intro a ha b hb hread hread'
    rw [GenericFamily.ofKeyword?_eq_some_iff] at hread hread'
    rw [List.inj_on_of_nodup_map hdistinct ha hb (hread.trans hread'.symm)]
  have hlast : lastSet? (order.filterMap Settings.known?) generic =
      lastSet? (settings.fallbacks.filterMap Settings.known?) generic :=
    Settings.lastFonts?_of_perm horder hagree
  simp only [settingsMade, lastSet?_append, hlast]

/-! ### Calls -/

/-- One call on a table that is built. -/
inductive Call where
  | enter (name : String) (family : Family)
  | lookUp (name : String) (request : Request)

/-- The name and the family that a call enters. -/
def Call.entered? : Call → Option (String × Family)
  | enter name family => some (name, family)
  | lookUp _ _ => none

/-- The table behind a call. Looking a name up leaves the table as it is. -/
def after (table : FontTable) : Call → FontTable
  | .enter name family => table.enter name family
  | .lookUp _ _ => table

/-- The table behind a run of calls. -/
def run (table : FontTable) (calls : List Call) : FontTable :=
  calls.foldl after table

/-- The families that a run of calls enters, with their names. -/
def entered (calls : List Call) : List (String × Family) :=
  calls.filterMap Call.entered?

/-- The family that was entered last under a name in any case of its letters. -/
def lastEntered? (families : List (String × Family)) (name : String) : Option Family :=
  ((families.filter fun entry => Text.lower entry.1 = Text.lower name).getLast?).map (·.2)

variable {table : FontTable} {call : Call} {calls : List Call}

theorem run_append_singleton (table : FontTable) (calls : List Call) (call : Call) :
    table.run (calls ++ [call]) = (table.run calls).after call :=
  List.foldl_concat ..

theorem entered_append_singleton (calls : List Call) (call : Call) :
    entered (calls ++ [call]) = entered calls ++ call.entered?.toList := by
  rw [entered, List.filterMap_append, entered, List.filterMap_cons, List.filterMap_nil]
  cases call.entered? <;> rfl

/-- A call enters at most one family, under its name in lower case. -/
theorem families_after (table : FontTable) (call : Call) :
    (table.after call).families =
      call.entered?.elim table.families fun entry =>
        table.families.insert (Text.lower entry.1) entry.2 := by
  cases call <;> rfl

theorem standIns_after (table : FontTable) (call : Call) :
    (table.after call).standIns = table.standIns := by
  cases call <;> rfl

/-! ### Runs -/

/-- No call changes which local fonts stand in for a generic family. -/
theorem standIns_run (table : FontTable) (calls : List Call) :
    (table.run calls).standIns = table.standIns := by
  induction calls using List.reverseRecOn with
  | nil => rfl
  | append_singleton calls call ih => rw [run_append_singleton, standIns_after, ih]

theorem lastEntered?_append_singleton (families : List (String × Family))
    (entry : String × Family) (name : String) :
    lastEntered? (families ++ [entry]) name =
      if Text.lower entry.1 = Text.lower name then some entry.2
      else lastEntered? families name := by
  by_cases h : Text.lower entry.1 = Text.lower name <;> simp [lastEntered?, h]

/-- Behind a run, a table without families has under each name the family that was entered last. -/
theorem getElem?_families_run (hempty : table.families = ∅) (calls : List Call) (name : String) :
    (table.run calls).families[Text.lower name]? = lastEntered? (entered calls) name := by
  induction calls using List.reverseRecOn with
  | nil =>
    show table.families[Text.lower name]? = none
    rw [hempty, Std.ExtTreeMap.getElem?_empty]
  | append_singleton calls call ih =>
    rw [run_append_singleton, families_after, entered_append_singleton]
    cases call.entered? with
    | none =>
      rw [Option.toList_none, List.append_nil]
      exact ih
    | some entry =>
      rw [Option.toList_some, lastEntered?_append_singleton, ← ih]
      simp only [Option.elim_some, Std.ExtTreeMap.getElem?_insert, Std.compare_eq_iff_eq]

theorem lastEntered?_eq_none_iff {families : List (String × Family)} {name : String} :
    lastEntered? families name = none ↔
      ∀ entry ∈ families, Text.lower entry.1 ≠ Text.lower name := by
  simp [lastEntered?]

/-- A family that is not replaced later is the one that was entered last. -/
theorem lastEntered?_of_not_replaced {before behind : List (String × Family)} {name other : String}
    {family : Family} (hsame : Text.lower other = Text.lower name)
    (hbehind : ∀ entry ∈ behind, Text.lower entry.1 ≠ Text.lower name) :
    lastEntered? (before ++ (other, family) :: behind) name = some family := by
  have hnone : behind.filter (fun entry => Text.lower entry.1 = Text.lower name) = [] := by
    simpa [List.filter_eq_nil_iff] using hbehind
  simp [lastEntered?, List.filter_append, hsame, hnone]

/-- A name was used before if a family stands under it. -/
theorem mem_families_run_iff (hempty : table.families = ∅) {name : String} :
    Text.lower name ∈ (table.run calls).families ↔
      Text.lower name ∈ ((entered calls).map fun entry => Text.lower entry.1).toFinset := by
  rw [← Std.ExtTreeMap.isSome_getElem?_iff_mem, getElem?_families_run hempty,
    ← not_iff_not, Bool.not_eq_true, Option.isSome_eq_false_iff, Option.isNone_iff_eq_none,
    lastEntered?_eq_none_iff]
  simp

/-- Behind a run, a table that was empty has as many names as were used, not counting those that
differ only in case. -/
theorem size_run (hempty : table.families = ∅) (calls : List Call) :
    (table.run calls).size =
      ((entered calls).map fun entry => Text.lower entry.1).toFinset.card := by
  induction calls using List.reverseRecOn with
  | nil =>
    show table.families.size = 0
    rw [hempty, Std.ExtTreeMap.size_empty]
  | append_singleton calls call ih =>
    rw [run_append_singleton, size, families_after, entered_append_singleton]
    cases call.entered? with
    | none =>
      rw [Option.toList_none, List.append_nil]
      exact ih
    | some entry =>
      rw [Option.elim_some, Std.ExtTreeMap.size_insert, Option.toList_some, List.map_append,
        List.toFinset_append, List.map_cons, List.map_nil, List.toFinset_cons,
        List.toFinset_nil, insert_empty_eq, Finset.union_singleton, Finset.card_insert_eq_ite]
      simp only [Std.ExtTreeMap.contains_iff_mem, mem_families_run_iff hempty]
      rw [← ih]
      rfl

/-- Behind a run, looking a name up finds the family that was entered last, with the fallbacks for
the request. -/
theorem lookUp_run (hempty : table.families = ∅) (calls : List Call) (name : String)
    (request : Request) :
    (table.run calls).lookUp name request =
      (lastEntered? (entered calls) name).map fun family =>
        { family with fallbacks := table.fallbacksFor family.fallbacks request } := by
  rw [lookUp, getElem?_families_run hempty]
  simp only [fallbacksFor, standIns_run]

/-! ### Tables that are built and filled -/

/-- The fallbacks for a request: those of the family, else of the request, else the list that was
set last for its generic family, else none. Only for the list that was set does it make a difference
whether it is empty or missing. -/
def precedence (made : List Setting) (own : List String) (request : Request) : List String :=
  if own ≠ [] then own
  else if request.fallbacks ≠ [] then request.fallbacks
  else (request.generic.bind (lastSet? made)).getD []

theorem fallbacksFor_eq_precedence
    (hset : ∀ generic, table.standIns generic = (lastSet? made generic).getD [])
    (own : List String) (request : Request) :
    table.fallbacksFor own request = precedence made own request := by
  have hgeneric : request.generic.elim [] table.standIns =
      (request.generic.bind (lastSet? made)).getD [] := by
    cases request.generic with
    | none => rfl
    | some generic => exact hset generic
  rw [fallbacksFor, precedence, hgeneric]
  simp only [Bool.not_eq_true', List.isEmpty_eq_false_iff]

/-- A table is built from settings whose keys differ not only in case, in whichever order these are
gone through, and any run of calls is made on it. It has as many names as were entered, not counting
those that differ only in case. A name is not found if and only if no family was entered under it in
any case; else the last such family is found, with fallbacks from the first of four layers that has
some. -/
theorem lookUp_run_build {text : String} {settings : Settings} {order : List Settings.Entry}
    (hread : Settings.ofText? text = .ok settings)
    (hdistinct : (settings.fallbacks.map fun entry => Text.lower entry.1).Nodup)
    (horder : order.Perm settings.fallbacks) (usual : Bool) (more : List Setting) :
    ∃ table, build usual { settings with fallbacks := order } more = .ok table ∧
      ∀ calls : List Call,
        (table.run calls).size =
          ((entered calls).map fun entry => Text.lower entry.1).toFinset.card ∧
        ∀ (name : String) (request : Request),
          ((table.run calls).lookUp name request = none ↔
            ∀ entry ∈ entered calls, Text.lower entry.1 ≠ Text.lower name) ∧
          ∀ (before : List (String × Family)) (other : String) (family : Family)
            (behind : List (String × Family)),
            entered calls = before ++ (other, family) :: behind →
            Text.lower other = Text.lower name →
            (∀ entry ∈ behind, Text.lower entry.1 ≠ Text.lower name) →
            (table.run calls).lookUp name request = some { family with
              fallbacks := precedence (settingsMade usual settings more) family.fallbacks
                request } := by
  have hknown : order.find? Settings.isUnknown = none := by
    rw [Settings.find?_isUnknown_eq_none_of_perm horder]
    exact (Settings.ofText?_eq_ok_iff.mp hread).2
  refine ⟨_, build_eq_ok hknown, fun calls => ⟨size_run rfl calls, fun name request => ?_⟩⟩
  rw [lookUp_run rfl]
  refine ⟨by rw [Option.map_eq_none_iff, lastEntered?_eq_none_iff], ?_⟩
  intro before other family behind hentered hsame hbehind
  rw [hentered, lastEntered?_of_not_replaced hsame hbehind, Option.map_some,
    fallbacksFor_eq_precedence fun generic => ?_]
  exact congrArg (Option.getD · []) (lastSet?_of_perm hdistinct horder)

/-- A table with the usual local fonts gets others for two generic families from settings, one of
them none, and others for one more. A family is entered, and replaced under its name in another
case. -/
theorem lookUp_run_build_of_two_layers :
    let settings : Settings := { fallbacks := [("Serif", ["Georgia"]), ("monospace", [])] }
    let made := settingsMade true settings [(.cursive, ["Zapfino"])]
    let calls : List Call := [.enter "Foo" ⟨[], ["Arial"], none⟩, .lookUp "FOO" ⟨[], none⟩,
      .enter "fOO" ⟨[], [], none⟩]
    Settings.ofText? "\x7b\"fallbacks\":\x7b\"Serif\":[\"Georgia\"],\"monospace\":[]\x7d\x7d" =
        .ok settings ∧
      (∃ table, build true settings [(.cursive, ["Zapfino"])] = .ok table ∧
        (table.run calls).size = 1 ∧
        (table.run calls).lookUp "Bar" ⟨[], none⟩ = none ∧
        ∀ request, (table.run calls).lookUp "foo" request =
          some ⟨[], precedence made [] request, none⟩) ∧
      [⟨["Inter"], some .serif⟩, ⟨[], some .serif⟩, ⟨[], some .monospace⟩, ⟨[], some .cursive⟩,
          ⟨[], some .systemUi⟩, ⟨[], none⟩].map (precedence made []) =
        [["Inter"], ["Georgia"], [], ["Zapfino"], ["Arial"], []] := by
  intro settings made calls
  have hdecode : Json.Decoder.ofText Settings.decode
      "\x7b\"fallbacks\":\x7b\"Serif\":[\"Georgia\"],\"monospace\":[]\x7d\x7d" = .ok settings := by
    decide +kernel
  have hSerif : GenericFamily.ofKeyword? "Serif" = some .serif :=
    Settings.ofKeyword?_of_tied_serif.2
  have hmonospace : GenericFamily.ofKeyword? "monospace" = some .monospace :=
    GenericFamily.ofKeyword?_keyword .monospace
  have hknown : settings.fallbacks.find? Settings.isUnknown = none := by
    simp [settings, Settings.isUnknown, hSerif, hmonospace]
  have hmade : made = GenericFamily.usual ++ [(.serif, ["Georgia"]), (.monospace, [])] ++
      [(.cursive, ["Zapfino"])] := by
    simp [made, settings, settingsMade, Settings.known?, hSerif, hmonospace]
  have hread := Settings.ofText?_eq_ok_iff.mpr ⟨hdecode, hknown⟩
  have hlower {a b : String} : Text.lower a = Text.lower b ↔
      a.toList.map Char.toLower = b.toList.map Char.toLower := by
    rw [← String.toList_inj, Text.lower, Text.lower, String.toList_map, String.toList_map]
  have hdistinct : (settings.fallbacks.map fun entry => Text.lower entry.1).Nodup := by
    have hne : Text.lower "Serif" ≠ Text.lower "monospace" := hlower.not.mpr (by decide)
    simpa [settings] using hne
  obtain ⟨table, hbuild, hrun⟩ := lookUp_run_build hread hdistinct (List.Perm.refl _) true
    [(.cursive, ["Zapfino"])]
  obtain ⟨hsize, hfound⟩ := hrun calls
  have hentered : entered calls =
      [("Foo", ⟨[], ["Arial"], none⟩)] ++ ("fOO", ⟨[], [], none⟩) :: [] := rfl
  have hFoo : Text.lower "fOO" = Text.lower "Foo" := hlower.mpr (by decide)
  have hfoo : Text.lower "fOO" = Text.lower "foo" := hlower.mpr (by decide)
  have hBar : Text.lower "Foo" ≠ Text.lower "Bar" := hlower.not.mpr (by decide)
  refine ⟨hread, ⟨table, hbuild, ?_, ?_, fun request => ?_⟩, hmade ▸ by decide⟩
  · rw [hsize, hentered]
    simp [hFoo]
  · refine (hfound "Bar" ⟨[], none⟩).1.mpr ?_
    rw [hentered]
    simp [hFoo, hBar]
  · exact (hfound "foo" request).2 _ "fOO" ⟨[], [], none⟩ [] hentered hfoo (by simp)

end FontTable

end WebFonts
