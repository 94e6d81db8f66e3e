import Mathlib.Data.List.Forall2
import WebFonts.Proofs.Applying

/-!
# Distinct rules are inserted once

A rule that a call generates is new if it stands neither among the rules of earlier calls nor
earlier among its own (`novel`). A draft decides this by the set of rules it knows; the two agree at
every call of a run (`fresh_eq_novel`), and so exactly the new rules stand in front of the source,
those of later calls first (`lead_applyCalls`). Whether a call fails makes no difference to this.
-/

namespace WebFonts.Draft

variable {rule : String} {known : Css.Names}

/-! ### The rules that are new -/

/-- The rules of a list that occur neither among earlier ones nor before their own place in the
list. -/
def novel (earlier rules : List String) : List String :=
  (rules.zipIdx.filter fun (rule, place) => rule ∉ earlier ∧ rule ∉ rules.take place).map Prod.fst

theorem novel_cons (earlier : List String) (rule : String) (rest : List String) :
    novel earlier (rule :: rest) =
      (if rule ∈ earlier then [] else [rule]) ++ novel (rule :: earlier) rest := by
  have hrest : (rest.zipIdx 1).filter (fun (other, place) =>
        other ∉ earlier ∧ other ∉ (rule :: rest).take place) =
      (rest.zipIdx.filter fun (other, place) =>
        other ∉ rule :: earlier ∧ other ∉ rest.take place).map fun (other, place) =>
          (other, place + 1) := by
    rw [List.zipIdx_succ, List.filter_map]
    congr 1
    refine List.filter_congr fun (other, place) _ => ?_
    simp only [Function.comp_apply, List.take_succ_cons, List.mem_cons, decide_eq_decide]
    tauto
  unfold novel
  rw [List.zipIdx_cons, List.filter_cons, hrest]
  by_cases hmem : rule ∈ earlier <;> simp [hmem, Function.comp_def]

/-- What is new to a draft is new to a list, if both hold the same rules. -/
theorem fresh_eq_novel {earlier : List String} (h : ∀ rule, rule ∈ known ↔ rule ∈ earlier)
    (rules : List String) : fresh known rules = novel earlier rules := by
  induction rules generalizing known earlier with
  | nil => rfl
  | cons first rest ih =>
    rw [novel_cons, fresh]
    by_cases hknown : first ∈ known
    · rw [if_pos (Std.ExtTreeSet.mem_iff_contains.mp hknown), if_pos ((h first).mp hknown),
        List.nil_append]
      apply ih
      intro rule
      rw [h, List.mem_cons, or_iff_right_of_imp]
      rintro rfl
      exact (h rule).mp hknown
    · rw [if_neg fun hcontains => hknown (Std.ExtTreeSet.mem_iff_contains.mpr hcontains),
        if_neg fun hmem => hknown ((h first).mpr hmem), List.singleton_append]
      congr 1
      apply ih
      intro rule
      rw [Std.ExtTreeSet.mem_insert, Std.compare_eq_iff_eq, h, List.mem_cons, eq_comm]

theorem novel_eq_fresh (earlier rules : List String) :
    novel earlier rules = fresh (Std.ExtTreeSet.ofList earlier) rules := by
  refine (fresh_eq_novel (fun rule => ?_) rules).symm
  rw [Std.ExtTreeSet.mem_ofList, List.contains_iff_mem]

theorem mem_novel {earlier rules : List String} :
    rule ∈ novel earlier rules ↔ rule ∈ rules ∧ rule ∉ earlier := by
  rw [novel_eq_fresh, mem_fresh, Std.ExtTreeSet.mem_ofList, List.contains_iff_mem]

theorem nodup_novel (earlier rules : List String) : (novel earlier rules).Nodup := by
  rw [novel_eq_fresh]
  exact nodup_fresh ..

/-- The new rules of each of some calls. -/
def newRules (directory : Option String) (calls : List Call) : List (List String) :=
  calls.mapIdx fun place call =>
    novel (rulesOf directory (calls.take place)) (call.rules directory)

theorem newRules_concat (directory : Option String) (calls : List Call) (call : Call) :
    newRules directory (calls ++ [call]) =
      newRules directory calls ++ [novel (rulesOf directory calls) (call.rules directory)] := by
  unfold newRules
  rw [List.mapIdx_concat, List.take_left]
  congr 1
  rw [List.mapIdx_eq_mapIdx_iff]
  intro place hplace
  rw [List.take_append_of_le_length hplace.le]

theorem rulesOf_concat (directory : Option String) (calls : List Call) (call : Call) :
    rulesOf directory (calls ++ [call]) = rulesOf directory calls ++ call.rules directory := by
  simp [rulesOf]

theorem mem_newRules {directory : Option String} {calls : List Call} :
    rule ∈ (newRules directory calls).flatten ↔ rule ∈ rulesOf directory calls := by
  induction calls using List.reverseRecOn with
  | nil => exact Iff.rfl
  | append_singleton calls call ih =>
    rw [newRules_concat, rulesOf_concat, List.flatten_concat, List.mem_append, List.mem_append,
      ih, mem_novel]
    tauto

theorem nodup_newRules (directory : Option String) (calls : List Call) :
    (newRules directory calls).flatten.Nodup := by
  induction calls using List.reverseRecOn with
  | nil => exact List.nodup_nil
  | append_singleton calls call ih =>
    rw [newRules_concat, List.flatten_concat]
    refine List.nodup_append.mpr ⟨ih, nodup_novel .., ?_⟩
    rintro rule hearlier _ hnew rfl
    exact (mem_novel.mp hnew).2 (mem_newRules.mp hearlier)

/-- The new rules of some calls in the order in which they end up in front of a stylesheet: those of
a later call in front of those of an earlier one. -/
def leadRules (directory : Option String) (calls : List Call) : List String :=
  (newRules directory calls).reverse.flatten

theorem mem_leadRules {directory : Option String} {calls : List Call} :
    rule ∈ leadRules directory calls ↔ ∃ call ∈ calls, rule ∈ call.rules directory := by
  rw [leadRules, (List.reverse_perm _).flatten.mem_iff, mem_newRules, rulesOf, List.mem_flatMap]

theorem nodup_leadRules (directory : Option String) (calls : List Call) :
    (leadRules directory calls).Nodup :=
  (List.reverse_perm _).flatten.nodup_iff.mpr (nodup_newRules ..)

/-! ### How a rule is finished -/

/-- What becomes of a generated rule: it gets a line of its own during development; otherwise it is
minified, unless no minifier is to be asked or the minifier fails. -/
inductive Finished (tools : Tools) (options : Options) (rule : String) : String → Prop
  | readable (hdev : options.dev = true) : Finished tools options rule (rule ++ "\n")
  | unasked (hdev : options.dev = false) (hminify : options.minify = none) :
    Finished tools options rule rule
  | minified {settings : MinifySettings} {text : String} (hdev : options.dev = false)
    (hminify : options.minify = some settings) (htext : tools.minifier settings rule = some text) :
    Finished tools options rule text
  | failed {settings : MinifySettings} (hdev : options.dev = false)
    (hminify : options.minify = some settings) (htext : tools.minifier settings rule = none) :
    Finished tools options rule rule

variable (tools : Tools) (options : Options)

theorem finished_finish (rule : String) :
    Finished tools options rule (tools.finish options rule) := by
  unfold Tools.finish
  split
  · next hdev => exact .readable hdev
  · next hdev =>
    have hdev : options.dev = false := eq_false_of_ne_true hdev
    split
    · next hminify => exact .unasked hdev hminify
    · next settings hminify =>
      cases htext : tools.minifier settings rule with
      | none => exact .failed hdev hminify htext
      | some text => exact .minified hdev hminify htext

/-! ### Runs -/

/-- The text of some rules as they are inserted. -/
def finishedText (rules : List String) : String :=
  String.join (rules.map (tools.finish options))

theorem join_finishedText (lists : List (List String)) :
    String.join (lists.map (finishedText tools options)) =
      finishedText tools options lists.flatten := by
  induction lists with
  | nil => rfl
  | cons rules rest ih =>
    rw [List.map_cons, String.join_cons, ih, List.flatten_cons]
    simp only [finishedText, List.map_append, String.join_append]

/-- A run puts the new rules of its calls in front of the source, those of a later call in front of
those of an earlier one. Where a call succeeds, it reports the number of its new rules. -/
theorem lead_applyCalls (source : String) (registry : Registry) (calls : List Call) :
    let run := applyCalls tools options calls (.ofSource source registry)
    let new := newRules options.directory calls
    run.1.overlay.lead = String.join (new.map (finishedText tools options)).reverse ∧
      List.Forall₂ (fun outcome rules =>
        ∀ report, outcome = .ok report → report.inserted = rules.length) run.2 new := by
  induction calls using List.reverseRecOn with
  | nil => exact ⟨rfl, .nil⟩
  | append_singleton calls call ih =>
    obtain ⟨hlead, hreports⟩ := ih
    have hmem (rule : String) :
        rule ∈ (applyCalls tools options calls (.ofSource source registry)).1.known ↔
          rule ∈ rulesOf options.directory calls := by
      rw [mem_known_applyCalls]
      exact or_iff_right Std.ExtTreeSet.not_mem_empty
    dsimp only at hlead hreports ⊢
    rw [applyCalls_append, newRules_concat, ← fresh_eq_novel hmem]
    generalize applyCalls tools options calls (.ofSource source registry) = before at *
    obtain ⟨-, hcall, -, hreport⟩ := apply_enters tools options call.use call.family before.1
    refine ⟨?_, List.rel_append hreports (.cons hreport .nil)⟩
    rw [List.map_append, List.map_singleton, List.reverse_append, List.reverse_singleton,
      List.singleton_append, String.join_cons, ← hlead]
    exact hcall

theorem lead_applyCalls_ofSource (source : String) (registry : Registry) (calls : List Call) :
    (applyCalls tools options calls (.ofSource source registry)).1.overlay.lead =
      finishedText tools options (leadRules options.directory calls) := by
  rw [(lead_applyCalls tools options source registry calls).1, ← List.map_reverse,
    join_finishedText, leadRules]

/-- Every distinct rule is inserted exactly once into a stylesheet. After any run of calls, those
that fail included, the new rules of the calls stand in front of the source, finished, and those of
later calls first. They are all the rules generated, none of them twice. A call that succeeds
reports the number of its new rules. -/
theorem rules_inserted_once (source : String) (registry : Registry) (calls : List Call) :
    let run := applyCalls tools options calls (.ofSource source registry)
    let new := newRules options.directory calls
    run.1.overlay.render =
        String.join (new.map (finishedText tools options)).reverse ++
          String.ofList (run.1.overlay.weave 0 source.toList) ∧
      run.1.overlay.lead = String.join (new.map (finishedText tools options)).reverse ∧
      (∀ rule, Finished tools options rule (tools.finish options rule)) ∧
      new.flatten.Nodup ∧
      (∀ rule, rule ∈ new.flatten ↔ ∃ call ∈ calls, rule ∈ call.rules options.directory) ∧
      List.Forall₂ (fun outcome rules =>
        ∀ report, outcome = .ok report → report.inserted = rules.length) run.2 new := by
  intro run new
  obtain ⟨hlead, hreports⟩ := lead_applyCalls tools options source registry calls
  have hsource : run.1.overlay.source = source := source_applyCalls ..
  refine ⟨?_, hlead, finished_finish tools options, nodup_newRules .., fun rule => ?_, hreports⟩
  · rw [Overlay.render, hsource, hlead]
  · rw [mem_newRules, rulesOf, List.mem_flatMap]

end WebFonts.Draft
