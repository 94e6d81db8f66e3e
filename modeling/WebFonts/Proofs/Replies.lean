import WebFonts.Proofs.DistinctRules

/-!
# What becomes of the replies to lookups

The replies to the lookups for a stylesheet are entered one after another. The families that were
found make a run of calls, which goes on up to the first reply that is a failure
(`Draft.enterAll_eq_ok`, `Draft.enterAll_eq_error`). A revision that succeeds is such a run from
start to end (`Reviser.reviseBy_runs`), and inserts what it inserts (`Reviser.reviseBy_eq_ok`).
-/

namespace WebFonts

open Css (FamilyUse)
open Draft (Call)

/-! ### Replies -/

namespace Reply

/-- The call to which a reply leads, if it brings a family. -/
def call? (reply : Reply) : Option Call :=
  match reply.answer with
  | .found family => some ⟨reply.use, family⟩
  | .unknown | .refused _ | .crashed => none

/-- The address that is recorded for a reply. -/
def preloaded? (policy : PreloadPolicy) (reply : Reply) : Option String :=
  reply.call?.bind (Call.preloaded? policy)

/-- The fault with which a reply ends a revision. -/
def fault? (reply : Reply) : Option RevisionFault :=
  match reply.answer with
  | .crashed => some .crashed
  | .refused fault => some (.resolve fault)
  | .found _ | .unknown => none

variable {reply : Reply}

theorem call?_eq_some_iff {call : Call} :
    reply.call? = some call ↔ reply.use = call.use ∧ reply.answer = .found call.family := by
  obtain ⟨use, answer⟩ := reply
  obtain ⟨use', family⟩ := call
  cases answer <;> simp [call?]

/-- A reply that is no failure and brings no family knows of none. -/
theorem answer_eq_unknown (hfault : reply.fault? = none) (hcall : reply.call? = none) :
    reply.answer = .unknown := by
  obtain ⟨use, answer⟩ := reply
  cases answer with
  | unknown => rfl
  | found family => cases hcall
  | refused fault => cases hfault
  | crashed => cases hfault

end Reply

namespace Lookups

variable (lookups : Lookups) {uses : List FamilyUse} {call : Call}

/-- The calls to which the lookups for some uses lead. -/
def calls (uses : List FamilyUse) : List Call :=
  (lookups.replies uses).filterMap Reply.call?

variable {lookups}

theorem exists_reply_of_mem_calls (h : call ∈ lookups.calls uses) :
    ∃ reply ∈ lookups.replies uses, reply.use = call.use ∧ reply.answer = .found call.family := by
  obtain ⟨reply, hreply, hcall⟩ := List.mem_filterMap.mp h
  exact ⟨reply, hreply, Reply.call?_eq_some_iff.mp hcall⟩

theorem use_of_mem_calls (h : call ∈ lookups.calls uses) : call.use ∈ uses := by
  obtain ⟨reply, hreply, huse, -⟩ := exists_reply_of_mem_calls h
  exact huse ▸ lookups.use_of_mem_replies hreply

theorem uses_sublist (replies : List Reply) :
    ((replies.filterMap Reply.call?).map Call.use).Sublist (replies.map Reply.use) := by
  induction replies with
  | nil => exact .slnil
  | cons reply rest ih =>
    rw [List.filterMap_cons, List.map_cons]
    cases hcall : reply.call? with
    | none => exact ih.cons reply.use
    | some call =>
      rw [(Reply.call?_eq_some_iff.mp hcall).1]
      exact ih.cons_cons call.use

/-- Every reply is the answer of a resolver. -/
def Follow (lookups : Lookups) (resolver : Resolver) : Prop :=
  ∀ uses, ∀ reply ∈ lookups.replies uses, reply = .ofResolver resolver reply.use

theorem follow_inOrder (resolver : Resolver) : (inOrder resolver).Follow resolver := by
  intro uses reply hreply
  obtain ⟨use, -, rfl⟩ := List.mem_map.mp hreply
  rfl

/-- A use that leads to no call asks for a family of which the resolver knows nothing, if the
resolver does not fail. -/
theorem Follow.unknown {resolver : Resolver} (h : lookups.Follow resolver)
    (hanswered : ∀ reply ∈ lookups.replies uses, reply.fault? = none) {use : FamilyUse}
    (huse : use ∈ uses) (hnone : ∀ call ∈ lookups.calls uses, call.use ≠ use) :
    resolver use.family use.request = .unknown := by
  obtain ⟨reply, hreply, rfl⟩ := List.mem_map.mp ((lookups.perm uses).mem_iff.mpr huse)
  have hanswer : reply.answer = resolver reply.use.family reply.use.request :=
    congrArg Reply.answer (h uses reply hreply)
  rw [← hanswer]
  apply Reply.answer_eq_unknown (hanswered reply hreply)
  rw [Option.eq_none_iff_forall_ne_some]
  intro call hcall
  exact hnone call (List.mem_filterMap.mpr ⟨reply, hreply, hcall⟩)
    (Reply.call?_eq_some_iff.mp hcall).1.symm

theorem Follow.found {resolver : Resolver} (h : lookups.Follow resolver)
    (hcall : call ∈ lookups.calls uses) :
    resolver call.use.family call.use.request = .found call.family := by
  obtain ⟨reply, hreply, huse, hanswer⟩ := exists_reply_of_mem_calls hcall
  rw [h uses reply hreply] at hanswer
  rw [← huse]
  exact hanswer

/-- Where no two uses have the same offset, no two calls have. -/
theorem nodup_spliceAt_calls (lookups : Lookups) (h : (uses.filterMap FamilyUse.spliceAt).Nodup) :
    ((lookups.calls uses).filterMap (·.use.spliceAt)).Nodup := by
  have hsublist := (uses_sublist (lookups.replies uses)).filterMap FamilyUse.spliceAt
  rw [List.filterMap_map] at hsublist
  have hperm := (lookups.perm uses).filterMap FamilyUse.spliceAt
  exact (hperm.nodup_iff.mpr h).sublist hsublist

end Lookups

/-! ### Runs over replies -/

namespace Draft

variable {tools : Tools} {options : Options} {replies rest : List Reply} {reply : Reply}
  {draft draft' : Draft} {fault : RevisionFault}

theorem enterAll_of_fault (h : reply.fault? = some fault) :
    draft.enterAll tools options (reply :: rest) = (draft, .error fault) := by
  obtain ⟨use, answer⟩ := reply
  cases answer <;> cases h <;> rfl

/-- A reply that is no failure leads to one call at most. If this call fails, the run ends with its
failure; otherwise it goes on. -/
theorem enterAll_of_answered (h : reply.fault? = none) (rest : List Reply) :
    let run := applyCalls tools options reply.call?.toList draft
    (∃ refusal, draft.enterAll tools options (reply :: rest) = (run.1, .error (.insert refusal))) ∨
      (∀ outcome ∈ run.2, ∃ report, outcome = .ok report) ∧
        draft.enterAll tools options (reply :: rest) = run.1.enterAll tools options rest := by
  obtain ⟨use, answer⟩ := reply
  cases answer with
  | crashed => cases h
  | refused fault => cases h
  | unknown => exact .inr ⟨nofun, rfl⟩
  | found family =>
    simp only [enterAll, Reply.call?, Option.toList_some, applyCalls]
    generalize draft.apply tools options use family = applied
    obtain ⟨entered, outcome⟩ := applied
    cases outcome with
    | error refusal => exact .inl ⟨refusal, rfl⟩
    | ok report =>
      refine .inr ⟨fun outcome hmem => ?_, rfl⟩
      exact ⟨report, List.mem_singleton.mp hmem⟩

theorem applyCalls_filterMap_cons :
    let first := applyCalls tools options reply.call?.toList draft
    let later := applyCalls tools options (rest.filterMap Reply.call?) first.1
    applyCalls tools options ((reply :: rest).filterMap Reply.call?) draft =
      (later.1, first.2 ++ later.2) := by
  have hcalls : (reply :: rest).filterMap Reply.call? =
      reply.call?.toList ++ rest.filterMap Reply.call? := by
    rw [List.filterMap_cons]
    cases reply.call? <;> rfl
  rw [hcalls]
  exact applyCalls_append ..

/-- A run in which nothing is known leaves the draft as it is. -/
theorem enterAll_of_unknown (h : ∀ reply ∈ replies, reply.answer = .unknown) :
    draft.enterAll tools options replies = (draft, .ok ()) := by
  induction replies with
  | nil => rfl
  | cons reply rest ih =>
    rw [enterAll, h reply (List.mem_cons_self ..)]
    exact ih fun other hmem => h other (List.mem_cons_of_mem reply hmem)

/-- A run that succeeds applies every family that was found, each of them with success. -/
theorem enterAll_eq_ok (h : draft.enterAll tools options replies = (draft', .ok ())) :
    (∀ reply ∈ replies, reply.fault? = none) ∧
      let run := applyCalls tools options (replies.filterMap Reply.call?) draft
      draft' = run.1 ∧ ∀ outcome ∈ run.2, ∃ report, outcome = .ok report := by
  induction replies generalizing draft with
  | nil =>
    cases h
    exact ⟨List.forall_mem_nil _, rfl, List.forall_mem_nil _⟩
  | cons reply rest ih =>
    cases hfault : reply.fault? with
    | some fault =>
      rw [enterAll_of_fault hfault] at h
      cases h
    | none =>
      rcases enterAll_of_answered hfault rest with ⟨refusal, hstep⟩ | ⟨hfirst, hstep⟩
      · rw [hstep] at h
        cases h
      · rw [hstep] at h
        obtain ⟨hanswered, hdraft, hlater⟩ := ih h
        refine ⟨List.forall_mem_cons.mpr ⟨hfault, hanswered⟩, ?_⟩
        rw [applyCalls_filterMap_cons]
        refine ⟨hdraft, fun outcome hmem => ?_⟩
        exact (List.mem_append.mp hmem).elim (hfirst outcome) (hlater outcome)

/-- How a run ends early: the families found by some replies in front were applied, and the next
reply is a failure, or names could not be inserted. -/
theorem enterAll_eq_error (h : draft.enterAll tools options replies = (draft', .error fault)) :
    ∃ (before : List Reply) (reply : Reply) (rest : List Reply), replies = before ++ reply :: rest ∧
      (∀ earlier ∈ before, earlier.fault? = none) ∧
      ((reply.fault? = some fault ∧
          draft' = (applyCalls tools options (before.filterMap Reply.call?) draft).1) ∨
        ∃ refusal, fault = .insert refusal) := by
  induction replies generalizing draft with
  | nil => cases h
  | cons reply rest ih =>
    cases hfault : reply.fault? with
    | some found =>
      rw [enterAll_of_fault hfault] at h
      cases h
      exact ⟨[], reply, rest, rfl, List.forall_mem_nil _, .inl ⟨hfault, rfl⟩⟩
    | none =>
      rcases enterAll_of_answered hfault rest with ⟨refusal, hstep⟩ | ⟨-, hstep⟩
      · rw [hstep] at h
        cases h
        exact ⟨[], reply, rest, rfl, List.forall_mem_nil _, .inr ⟨refusal, rfl⟩⟩
      · rw [hstep] at h
        obtain ⟨before, last, behind, rfl, hbefore, hend⟩ := ih h
        refine ⟨reply :: before, last, behind, rfl,
          List.forall_mem_cons.mpr ⟨hfault, hbefore⟩, hend.imp_left ?_⟩
        rintro ⟨hlast, hdraft⟩
        rw [applyCalls_filterMap_cons]
        exact ⟨hlast, hdraft⟩

end Draft

/-! ### Revisions -/

/-- What a revision that succeeds makes of a stylesheet: the rules of the families found stand in
front of it, and the names of their fallback families are spliced in. -/
structure Inserts (tools : Tools) (options : Options) (css : String) (calls : List Call)
    (overlay : Overlay) : Prop where
  source : overlay.source = css
  lead : overlay.lead =
    Draft.finishedText tools options (Draft.leadRules options.directory calls)
  inserted : ∀ offset,
    overlay.insertedAt offset = Draft.continuation (Draft.namesAt calls offset)

namespace Reviser

variable {reviser : Reviser} {lookups : Lookups} {options : Options} {css : String}
  {registry registry' : Registry} {uses : List FamilyUse}

/-- A revision that succeeds is a run of the calls to which its lookups lead, none of which
fails. -/
theorem reviseBy_runs {overlay : Overlay}
    (h : reviser.reviseBy lookups options css registry = (registry', .ok overlay)) :
    ∃ uses, usesOf? css options.customProperties = .ok uses ∧
      (uses ≠ [] → reviser.hasExecutor = true) ∧
      (∀ reply ∈ lookups.replies uses, reply.fault? = none) ∧
      let run := Draft.applyCalls reviser.tools options (lookups.calls uses)
        (.ofSource css registry)
      overlay = run.1.overlay ∧ registry' = run.1.registry ∧
        ∀ outcome ∈ run.2, ∃ report, outcome = .ok report := by
  unfold reviseBy at h
  split at h
  · cases h
  · rename_i huses
    cases h
    have hnone : lookups.replies [] = [] := List.map_eq_nil_iff.mp (lookups.perm []).eq_nil
    refine ⟨[], huses, fun hne => absurd rfl hne, ?_⟩
    rw [Lookups.calls, hnone]
    exact ⟨List.forall_mem_nil _, rfl, rfl, List.forall_mem_nil _⟩
  · rename_i uses _ huses
    split at h
    · rename_i hexecutor
      generalize hrun : Draft.enterAll _ _ _ (Draft.ofSource css registry) = run at h
      obtain ⟨draft, outcome⟩ := run
      cases outcome with
      | error fault => cases h
      | ok done =>
        cases h
        obtain ⟨hanswered, rfl, hreports⟩ := Draft.enterAll_eq_ok hrun
        exact ⟨uses, huses, fun _ => hexecutor, hanswered, rfl, rfl, hreports⟩
    · cases h

theorem reviseBy_eq_ok {overlay : Overlay}
    (h : reviser.reviseBy lookups options css registry = (registry', .ok overlay)) :
    ∃ uses, usesOf? css options.customProperties = .ok uses ∧
      Inserts reviser.tools options css (lookups.calls uses) overlay ∧
      (∀ reply ∈ lookups.replies uses, reply.fault? = none) ∧
      (uses ≠ [] → reviser.hasExecutor = true) := by
  obtain ⟨uses, huses, hexecutor, hanswered, rfl, -, hreports⟩ := reviseBy_runs h
  refine ⟨uses, huses, ⟨?_, ?_, fun offset => ?_⟩, hanswered, hexecutor⟩
  · exact Draft.source_applyCalls ..
  · exact Draft.lead_applyCalls_ofSource ..
  · rw [Draft.insertedAt_applyCalls hreports]
    exact String.empty_append ..

/-- A revision fails only for its text, for a missing executor, or for a reply that is a failure. -/
theorem exists_overlay_of_answered (huses : usesOf? css options.customProperties = .ok uses)
    (hexecutor : uses ≠ [] → reviser.hasExecutor = true)
    (hanswered : ∀ reply ∈ lookups.replies uses, reply.fault? = none) :
    ∃ registry' overlay,
      reviser.reviseBy lookups options css registry = (registry', .ok overlay) := by
  have hinsert := reviser.reviseBy_ne_insert options lookups css registry
  unfold reviseBy at hinsert ⊢
  rw [huses] at hinsert ⊢
  cases uses with
  | nil => exact ⟨registry, .ofSource css, rfl⟩
  | cons use uses =>
    dsimp only at hinsert ⊢
    rw [if_pos (hexecutor (List.cons_ne_nil _ _))] at hinsert ⊢
    generalize hrun : Draft.enterAll _ _ _ (Draft.ofSource css registry) = run at hinsert ⊢
    obtain ⟨draft, outcome⟩ := run
    cases outcome with
    | ok done => exact ⟨draft.registry, draft.overlay, rfl⟩
    | error fault =>
      obtain ⟨before, reply, rest, hreplies, -, ⟨hfault, -⟩ | ⟨refusal, rfl⟩⟩ :=
        Draft.enterAll_eq_error hrun
      · have hmem : reply ∈ lookups.replies (use :: uses) := by simp [hreplies]
        cases (hanswered reply hmem).symm.trans hfault
      · exact absurd rfl (hinsert refusal)

/-- A revision in which nothing is known leaves everything as it is. -/
theorem reviseBy_of_unknown (huses : usesOf? css options.customProperties = .ok uses)
    (hunknown : ∀ reply ∈ lookups.replies uses, reply.answer = .unknown)
    (hexecutor : uses ≠ [] → reviser.hasExecutor = true) :
    reviser.reviseBy lookups options css registry = (registry, .ok (.ofSource css)) := by
  unfold reviseBy
  rw [huses]
  cases uses with
  | nil => rfl
  | cons use uses =>
    dsimp only
    rw [if_pos (hexecutor (List.cons_ne_nil _ _)), Draft.enterAll_of_unknown hunknown]
    rfl

end Reviser

end WebFonts
