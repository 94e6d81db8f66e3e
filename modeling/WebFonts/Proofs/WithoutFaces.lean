import WebFonts.Proofs.OverlayRuns
import WebFonts.Proofs.Replies
import WebFonts.Resolver.Table

/-!
# Families of which no face is known

A resolver may know a family, but no face of it. A revision in which every answer is of this kind
cannot fail by itself, and records nothing. It still inserts something exactly if an answer lists a
local font to stand in for the family, which gets a rule, and a name in the declaration
(`Reviser.revision_without_faces`).

What is inserted is read off the calls (`Inserts.isChanged_iff`): some rule of a call is not
finished to an empty text, or a call names a fallback family in a declaration.
-/

namespace WebFonts

open Css (FamilyUse)
open Draft (Call)

/-! ### Whether anything is inserted -/

namespace Overlay

variable {overlay : Overlay}

theorem isChanged_of_insertedAt {offset : Nat} (h : overlay.insertedAt offset ≠ "") :
    overlay.isChanged = true := by
  rw [← Bool.not_eq_false]
  intro hunchanged
  rw [eq_ofSource_of_isChanged hunchanged] at h
  exact h (by simp [insertedAt, ofSource])

theorem isChanged_iff_inserted (h : overlay.Sound) :
    overlay.isChanged = true ↔ overlay.lead ≠ "" ∨ ∃ offset, overlay.insertedAt offset ≠ "" := by
  constructor
  · intro hchanged
    refine (lead_or_inserted h hchanged).imp_right ?_
    rintro ⟨front, -, -, hinserted⟩
    exact ⟨_, hinserted⟩
  · rintro (hlead | ⟨offset, hinserted⟩)
    · simp [isChanged, hlead]
    · exact isChanged_of_insertedAt hinserted

end Overlay

namespace Draft

variable {tools : Tools} {options : Options}

theorem continuation_ne_empty {names : List String} : continuation names ≠ "" ↔ names ≠ [] := by
  cases names with
  | nil => simp [continuation]
  | cons name names => simp [continuation, String.join_cons, String.append_eq_empty_iff]

theorem finishedText_ne_empty {rules : List String} :
    finishedText tools options rules ≠ "" ↔ ∃ rule ∈ rules, tools.finish options rule ≠ "" := by
  induction rules with
  | nil => simp [finishedText]
  | cons rule rest ih =>
    rw [finishedText, List.map_cons, String.join_cons, Ne, String.append_eq_empty_iff,
      not_and_or, List.exists_mem_cons_iff, ← ih]
    rfl

/-- Applying a family to a draft keeps its insertions sound, also if it fails. -/
theorem sound_apply {draft : Draft} (h : draft.overlay.Sound) (use : FamilyUse) (family : Family) :
    (draft.apply tools options use family).1.overlay.Sound := by
  have hlead (text : String) : (draft.overlay.prepend text).Sound := h.after (.prepend text)
  unfold apply
  dsimp only
  split
  · split
    · rename_i hinsert
      obtain ⟨hboundary, rfl⟩ := Overlay.insert_eq_ok_iff.mp hinsert
      exact (hlead _).place (Overlay.accepts_iff_isBoundary.mpr hboundary) _
    · exact hlead _
  · exact hlead _

theorem sound_applyCalls {draft : Draft} (h : draft.overlay.Sound) (calls : List Call) :
    (applyCalls tools options calls draft).1.overlay.Sound := by
  induction calls generalizing draft with
  | nil => exact h
  | cons call rest ih => exact ih (sound_apply h call.use call.family)

end Draft

/-- A call inserts something: a rule that is not finished to an empty text, or a name. -/
def Draft.Call.Inserts (tools : Tools) (options : Options) (call : Call) : Prop :=
  (∃ rule ∈ call.rules options.directory, tools.finish options rule ≠ "") ∨
    call.use.spliceAt ≠ none ∧ call.fallbackNames ≠ []

/-- A stylesheet is changed exactly if a call inserts something. -/
theorem Inserts.isChanged_iff {tools : Tools} {options : Options} {css : String}
    {calls : List Call} {overlay : Overlay} (h : Inserts tools options css calls overlay)
    (hsound : overlay.Sound) :
    overlay.isChanged = true ↔ ∃ call ∈ calls, call.Inserts tools options := by
  have hlead : overlay.lead ≠ "" ↔
      ∃ call ∈ calls, ∃ rule ∈ call.rules options.directory, tools.finish options rule ≠ "" := by
    rw [h.lead, Draft.finishedText_ne_empty]
    simp only [Draft.mem_leadRules]
    grind
  have hnames : (∃ offset, overlay.insertedAt offset ≠ "") ↔
      ∃ call ∈ calls, call.use.spliceAt ≠ none ∧ call.fallbackNames ≠ [] := by
    simp only [h.inserted, Draft.continuation_ne_empty]
    constructor
    · rintro ⟨offset, hne⟩
      obtain ⟨name, hname⟩ := List.exists_mem_of_ne_nil _ hne
      obtain ⟨call, hcall, hoffset, hmem⟩ := Draft.mem_namesAt.mp hname
      exact ⟨call, hcall, by simp [hoffset], List.ne_nil_of_mem hmem⟩
    · rintro ⟨call, hcall, hsplice, hne⟩
      obtain ⟨offset, hoffset⟩ := Option.ne_none_iff_exists'.mp hsplice
      obtain ⟨name, hname⟩ := List.exists_mem_of_ne_nil _ hne
      exact ⟨offset, List.ne_nil_of_mem (Draft.mem_namesAt.mpr ⟨call, hcall, hoffset, hname⟩)⟩
  rw [Overlay.isChanged_iff_inserted hsound, hlead, hnames, ← exists_or]
  simp only [Draft.Call.Inserts, and_or_left]

/-! ### Replies without faces -/

namespace Reply

/-- A reply that brings no face: nothing is known of the family, or only what can stand in for
it. -/
def Faceless (reply : Reply) : Prop :=
  reply.answer = .unknown ∨ ∃ family, reply.answer = .found family ∧ family.faces = []

/-- A reply brings a local font that stands in for the family. It is inserted as a name in the
declaration, or as a rule that is not finished to an empty text. -/
def BringsStandIn (tools : Tools) (options : Options) (reply : Reply) : Prop :=
  ∃ family, reply.answer = .found family ∧ ∃ installed ∈ family.fallbacks,
    reply.use.spliceAt ≠ none ∨
      tools.finish options
        (fallbackRule (fallbackName reply.use.family installed) installed family.metrics) ≠ ""

variable {reply : Reply} {tools : Tools} {options : Options}

theorem Faceless.fault?_eq_none (h : reply.Faceless) : reply.fault? = none := by
  obtain hunknown | ⟨family, hfound, -⟩ := h
  · rw [fault?, hunknown]
  · rw [fault?, hfound]

theorem Faceless.faces_eq_nil (h : reply.Faceless) {call : Call} (hcall : reply.call? = some call) :
    call.family.faces = [] := by
  have hanswer := (call?_eq_some_iff.mp hcall).2
  obtain hunknown | ⟨family, hfound, hfaces⟩ := h
  · cases hunknown.symm.trans hanswer
  · cases hfound.symm.trans hanswer
    exact hfaces

/-- Without faces, what a reply inserts comes from the local fonts that it lists. -/
theorem Faceless.inserts_iff (h : reply.Faceless) :
    (∃ call, reply.call? = some call ∧ call.Inserts tools options) ↔
      reply.BringsStandIn tools options := by
  constructor
  · rintro ⟨call, hcall, hinserts⟩
    have hfaces := h.faces_eq_nil hcall
    obtain ⟨huse, hanswer⟩ := call?_eq_some_iff.mp hcall
    refine ⟨call.family, hanswer, ?_⟩
    rw [huse]
    obtain ⟨rule, hrule, hfinish⟩ | ⟨hsplice, hnames⟩ := hinserts
    · rw [Call.rules, Draft.rules, hfaces, List.map_nil, List.nil_append] at hrule
      obtain ⟨installed, hmem, rfl⟩ := List.mem_map.mp hrule
      exact ⟨installed, hmem, .inr hfinish⟩
    · obtain ⟨installed, hmem⟩ :=
        List.exists_mem_of_ne_nil _ (mt List.map_eq_nil_iff.mpr hnames)
      exact ⟨installed, hmem, .inl hsplice⟩
  · rintro ⟨family, hanswer, installed, hmem, hinserts⟩
    refine ⟨⟨reply.use, family⟩, call?_eq_some_iff.mpr ⟨rfl, hanswer⟩, ?_⟩
    refine hinserts.symm.imp (fun hfinish => ?_) fun hsplice => ⟨hsplice, ?_⟩
    · exact ⟨_, List.mem_append_right _ (List.mem_map_of_mem hmem), hfinish⟩
    · exact List.ne_nil_of_mem (List.mem_map_of_mem hmem)

end Reply

namespace Reviser

variable {reviser : Reviser} {lookups : Lookups} {options : Options} {css : String}
  {uses : List FamilyUse}

/-- A revision in which no answer brings a face records nothing, and succeeds if there is something
on which the lookups can run. It changes the stylesheet exactly if an answer brings a local font to
stand in for a family. -/
theorem revision_without_faces (huses : usesOf? css options.customProperties = .ok uses)
    (hexecutor : uses ≠ [] → reviser.hasExecutor = true)
    (hfaceless : ∀ reply ∈ lookups.replies uses, reply.Faceless) (registry : Registry) :
    ∃ overlay, reviser.reviseBy lookups options css registry = (registry, .ok overlay) ∧
      (overlay.isChanged = true ↔
        ∃ reply ∈ lookups.replies uses, reply.BringsStandIn reviser.tools options) := by
  obtain ⟨registry', overlay, hrevise⟩ : ∃ registry' overlay,
      reviser.reviseBy lookups options css registry = (registry', .ok overlay) :=
    exists_overlay_of_answered huses hexecutor fun reply hreply =>
      (hfaceless reply hreply).fault?_eq_none
  obtain ⟨uses', huses', hinserts, -, -⟩ := reviseBy_eq_ok hrevise
  obtain ⟨uses'', huses'', -, -, hoverlay, rfl, -⟩ := reviseBy_runs hrevise
  cases huses'.symm.trans huses
  cases huses''.symm.trans huses
  have hnone : (lookups.calls uses).filterMap (Call.preloaded? reviser.tools.preload) = [] := by
    rw [List.filterMap_eq_nil_iff]
    intro call hcall
    obtain ⟨reply, hreply, hreplied⟩ := List.mem_filterMap.mp hcall
    have hfaces := (hfaceless reply hreply).faces_eq_nil hreplied
    rw [Call.preloaded?, Draft.preloadAddress?, hfaces]
    rfl
  have hsound : overlay.Sound := hoverlay ▸ Draft.sound_applyCalls (Overlay.sound_ofSource css) _
  refine ⟨overlay, ?_, ?_⟩
  · rw [hrevise, Draft.registry_applyCalls, hnone]
    rfl
  · rw [hinserts.isChanged_iff hsound]
    simp only [Lookups.calls, List.mem_filterMap]
    constructor
    · rintro ⟨call, ⟨reply, hreply, hcall⟩, hinserted⟩
      exact ⟨reply, hreply, (hfaceless reply hreply).inserts_iff.mp ⟨call, hcall, hinserted⟩⟩
    · rintro ⟨reply, hreply, hstandIn⟩
      obtain ⟨call, hcall, hinserted⟩ := (hfaceless reply hreply).inserts_iff.mpr hstandIn
      exact ⟨call, ⟨reply, hreply, hcall⟩, hinserted⟩

/-! ### A table without faces -/

/-- A reviser that knows one family, but no face of it. -/
def knowingNoFace (name : String) : Reviser :=
  ⟨(FontTable.empty.enter name ⟨[], [], none⟩).resolver, ⟨.passthrough, fun _ _ => true⟩, true⟩

/-- Whatever local fonts it lists, it answers every request without a face. -/
theorem faceless_of_knowingNoFace (name : String) (uses : List FamilyUse) :
    ∀ reply ∈ (Lookups.inOrder (knowingNoFace name).resolver).replies uses, reply.Faceless := by
  intro reply hreply
  obtain ⟨use, -, rfl⟩ := List.mem_map.mp hreply
  simp only [Reply.Faceless, Reply.ofResolver, knowingNoFace, FontTable.resolver,
    FontTable.lookUp_enter, FontTable.lookUp_empty]
  split
  · exact .inr ⟨_, rfl, rfl⟩
  · exact .inl rfl

/-- A revision in which the author of the stylesheet lists a fallback for a family without faces. -/
theorem exists_revise_knowingNoFace {options : Options}
    (h : options = ⟨"a.css", true, false, none, none⟩) :
    ∃ uses registry overlay,
      usesOf? "a\x7bfont-family:Foo,Arial\x7d" options.customProperties = .ok uses ∧
      (knowingNoFace "Foo").revise options "a\x7bfont-family:Foo,Arial\x7d" .empty =
        (registry, .ok overlay) ∧
      overlay.render = "@font-face \x7b\n  font-family: \"Foo Fallback: Arial\";\n" ++
        "  src: local(\"Arial\");\n\x7d\n" ++
        "a\x7bfont-family:Foo, \"Foo Fallback: Arial\",Arial\x7d" ∧
      overlay.isChanged = true := by
  subst h
  have huses : (usesOf? "a\x7bfont-family:Foo,Arial\x7d" false).map (fun _ => ()) = .ok () := by
    decide +kernel
  have hrun : ((knowingNoFace "Foo").revise
      ⟨"a.css", true, false, none, none⟩ "a\x7bfont-family:Foo,Arial\x7d" .empty).2.map
        (fun overlay => (overlay.render, overlay.isChanged)) =
      .ok ("@font-face \x7b\n  font-family: \"Foo Fallback: Arial\";\n" ++
        "  src: local(\"Arial\");\n\x7d\n" ++
        "a\x7bfont-family:Foo, \"Foo Fallback: Arial\",Arial\x7d", true) := by
    decide +kernel
  generalize usesOf? _ _ = found at huses ⊢
  generalize (knowingNoFace _).revise _ _ _ = run at hrun ⊢
  obtain ⟨registry, outcome⟩ := run
  cases found with
  | error fault => cases huses
  | ok uses =>
    cases outcome with
    | error fault => cases hrun
    | ok overlay =>
      obtain ⟨hrender, hchanged⟩ := Prod.mk.inj (Except.ok.inj hrun)
      exact ⟨uses, registry, overlay, rfl, rfl, hrender, hchanged⟩

/-- The fallback that the author lists gets a rule and a name. Nothing is recorded. -/
theorem revision_without_faces_of_author_list :
    ∃ (options : Options) (uses : List FamilyUse) (overlay : Overlay),
      usesOf? "a\x7bfont-family:Foo,Arial\x7d" options.customProperties = .ok uses ∧
      (knowingNoFace "Foo").revise options "a\x7bfont-family:Foo,Arial\x7d" .empty =
        (.empty, .ok overlay) ∧
      ∃ reply ∈ (Lookups.inOrder (knowingNoFace "Foo").resolver).replies uses,
        reply.BringsStandIn (knowingNoFace "Foo").tools options := by
  obtain ⟨options, hoptions⟩ : ∃ options : Options,
    options = ⟨"a.css", true, false, none, none⟩ := ⟨_, rfl⟩
  obtain ⟨uses, registry, overlay, huses, hrun, -, hchanged⟩ := exists_revise_knowingNoFace hoptions
  have hexecutor : uses ≠ [] → (knowingNoFace "Foo").hasExecutor = true := fun _ => rfl
  obtain ⟨overlay', hrun', hiff⟩ :=
    revision_without_faces huses hexecutor (faceless_of_knowingNoFace "Foo" uses) .empty
  obtain ⟨rfl, houtcome⟩ := Prod.mk.inj (hrun.symm.trans hrun')
  cases houtcome
  exact ⟨options, uses, overlay, huses, hrun, hiff.mp hchanged⟩

/-- A stylesheet may be changed although no answer brings a face. -/
theorem changed_without_faces :
    ¬ ∀ (reviser : Reviser) (options : Options) (css : String) (uses : List FamilyUse)
      (registry registry' : Registry) (overlay : Overlay),
      usesOf? css options.customProperties = .ok uses →
      (∀ reply ∈ (Lookups.inOrder reviser.resolver).replies uses, reply.Faceless) →
      reviser.revise options css registry = (registry', .ok overlay) →
        overlay.isChanged = false ∧ registry' = registry := by
  intro h
  obtain ⟨uses, registry, overlay, huses, hrun, -, hchanged⟩ := exists_revise_knowingNoFace rfl
  have hsame := (h _ _ _ _ _ _ _ huses (faceless_of_knowingNoFace "Foo" uses) hrun).1
  cases hchanged.symm.trans hsame

end Reviser

end WebFonts
