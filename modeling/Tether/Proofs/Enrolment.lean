import Mathlib.Data.List.Basic
import Tether.Proofs.Chronicle

/-!
# What bridges know of classes

A bridge finds a class by its native type and by its resource. It comes to know classes one after the
other and forgets none, but where two of them have one resource, the later takes the place of the earlier.
-/

namespace Tether

open Regime M Bridge Ownership World

variable {c : ClassId} {d : ClassDecl} {x y : State} {w w' : World}

/-! ## Tables -/

def resourceId? (classes : Array ClassDecl) (c : ClassId) : Option Nat := ((classes[c]?).bind (·.resource)).map (·.id)

/-- The tables and the counter of a bridge describe one list of classes: each native type is there once,
with a class that is declared for it, and resources stand in the order of the list. -/
structure Bridge.Lists (br : Bridge) (classes : Array ClassDecl) : Prop where
  declared : ∀ e ∈ br.classes, ∃ d, classes[e.2]? = some d ∧ d.type = e.1
  types : (br.classes.map (·.1)).Nodup
  resources : br.resources = br.classes.filterMap fun e => (resourceId? classes e.2).map (·, e.2)
  count : br.stats.classes = br.classes.length

namespace Bridge.Lists

variable {br : Bridge} {classes classes' : Array ClassDecl}

theorem empty (hbr : br.registry = ([], [], 0)) (classes : Array ClassDecl) : br.Lists classes := by
  simp only [registry, Prod.mk.injEq] at hbr
  obtain ⟨hclasses, hresources, hcount⟩ := hbr
  refine ⟨?_, ?_, ?_, ?_⟩
  · rw [hclasses]
    simp
  · rw [hclasses]
    exact List.nodup_nil
  · rw [hclasses, hresources]
    rfl
  · rw [hclasses, hcount]
    rfl

theorem congr {br' : Bridge} (h : br.Lists classes) (hbr : br'.registry = br.registry) : br'.Lists classes := by
  simp only [registry, Prod.mk.injEq] at hbr
  obtain ⟨hclasses, hresources, hcount⟩ := hbr
  exact ⟨by rw [hclasses]; exact h.declared, by rw [hclasses]; exact h.types,
    by rw [hclasses, hresources]; exact h.resources, by rw [hclasses, hcount]; exact h.count⟩

theorem retain (h : br.Lists classes)
    (hc : Retains (fun d : ClassDecl => (d.type, d.resource)) classes classes') : br.Lists classes' := by
  refine ⟨fun e he => ?_, h.types, h.resources.trans (List.filterMap_congr fun e he => ?_), h.count⟩
  · obtain ⟨d, hd, htype⟩ := h.declared e he
    obtain ⟨d', hd', hsame⟩ := hc e.2 d hd
    exact ⟨d', hd', (Prod.mk.inj hsame).1.trans htype⟩
  · obtain ⟨d, hd, -⟩ := h.declared e he
    obtain ⟨d', hd', hsame⟩ := hc e.2 d hd
    unfold resourceId?
    rw [hd, hd', Option.bind_some, Option.bind_some, (Prod.mk.inj hsame).2]

theorem enroll (h : br.Lists classes) (hd : classes[c]? = some d)
    (hnew : br.classes.lookup d.type = none) : (br.enroll c d).Lists classes := by
  refine ⟨fun e he => ?_, ?_, ?_, congrArg (· + 1) h.count⟩
  · rcases List.mem_cons.mp he with rfl | he
    · exact ⟨d, hd, rfl⟩
    · exact h.declared e he
  · refine List.nodup_cons.mpr ⟨fun hmem => ?_, h.types⟩
    obtain ⟨e, he, htype⟩ := List.mem_map.mp hmem
    have hnot := List.lookup_eq_none_iff.mp hnew e he
    exact absurd htype.symm (by simpa using hnot)
  · have hid : resourceId? classes c = d.resource.map (·.id) := by
      unfold resourceId?
      rw [hd]
      rfl
    show (d.resource.map fun r => (r.id, c)).toList ++ br.resources = _
    rw [show (br.enroll c d).classes = (d.type, c) :: br.classes from rfl, List.filterMap_cons, hid, ← h.resources]
    cases d.resource <;> rfl

theorem lookup_type (h : br.Lists classes) {later earlier : List (NativeType × ClassId)}
    {type : NativeType} (hlist : br.classes = later ++ (type, c) :: earlier) :
    br.classes.lookup type = some c := by
  refine List.lookup_eq_some_iff.mpr ⟨later, earlier, hlist, fun e he => ?_⟩
  have hnodup := h.types
  rw [hlist, List.map_append, List.nodup_append] at hnodup
  have hne := hnodup.2.2 e.1 (List.mem_map_of_mem he) type (by simp)
  simpa using Ne.symm hne

theorem ids (h : br.Lists classes) : (br.classes.map (·.2)).Nodup := by
  have htypes := h.types
  have hdeclared := h.declared
  generalize br.classes = l at htypes hdeclared ⊢
  induction l with
  | nil => exact List.nodup_nil
  | cons e rest ih =>
    obtain ⟨hfirst, hrest⟩ := List.nodup_cons.mp htypes
    refine List.nodup_cons.mpr ⟨fun hmem => hfirst ?_,
      ih hrest fun e' he' => hdeclared e' (List.mem_cons_of_mem e he')⟩
    -- Two entries for one class would have one type.
    obtain ⟨e', he', hid⟩ := List.mem_map.mp hmem
    obtain ⟨d, hd, htype⟩ := hdeclared e List.mem_cons_self
    obtain ⟨d', hd', htype'⟩ := hdeclared e' (List.mem_cons_of_mem e he')
    rw [hid, hd] at hd'
    cases hd'
    exact List.mem_map.mpr ⟨e', he', htype'.symm.trans htype⟩

theorem lookup_resource (h : br.Lists classes) {later earlier : List (NativeType × ClassId)}
    {type : NativeType} {id : Nat} (hlist : br.classes = later ++ (type, c) :: earlier)
    (hc : resourceId? classes c = some id) :
    br.resources.lookup id = some c ↔ ∀ e ∈ later, resourceId? classes e.2 ≠ some id := by
  have hids := h.ids
  rw [h.resources]
  rw [hlist] at hids ⊢
  clear hlist
  induction later with
  | nil => simp [hc]
  | cons e rest ih =>
    have hids := List.nodup_cons.mp hids
    have hne : e.2 ≠ c := fun he => hids.1 (by simp [he])
    simp only [List.cons_append, List.filterMap_cons, List.forall_mem_cons]
    cases he : resourceId? classes e.2 with
    | none => simpa using ih hids.2
    | some k =>
      simp only [Option.map_some, List.lookup_cons]
      by_cases hk : id = k
      · simp [hk, hne]
      · have hk' : (id == k) = false := by simpa using hk
        rw [hk']
        simpa [Ne.symm hk] using ih hids.2

end Bridge.Lists

/-! ## States -/

def State.Listed (x : State) : Prop := ∀ (b : BridgeId) br, x.bridges[b]? = some br → br.Lists x.classes

/-- Bridges know what they knew in an earlier state, and classes keep their types and resources. -/
structure State.Before (x y : State) : Prop where
  bridges : ∀ (b : BridgeId) br, x.bridges[b]? = some br →
    ∃ br', y.bridges[b]? = some br' ∧ br.classes <:+ br'.classes
  classes : Retains (fun d : ClassDecl => (d.type, d.resource)) x.classes y.classes

namespace State

variable {z : State}

theorem Before.refl (x : State) : x.Before x := ⟨fun _ br hbr => ⟨br, hbr, List.suffix_refl _⟩, .refl _ _⟩

theorem Before.trans (h : x.Before y) (h' : y.Before z) : x.Before z := by
  refine ⟨fun b br hbr => ?_, h.classes.trans h'.classes⟩
  obtain ⟨br', hbr', hsuffix⟩ := h.bridges b br hbr
  obtain ⟨br'', hbr'', hsuffix'⟩ := h'.bridges b br' hbr'
  exact ⟨br'', hbr'', hsuffix.trans hsuffix'⟩

theorem Before.congr {x' : State} (h : x.Before y) (hbridges : x'.bridges = x.bridges)
    (hclasses : x'.classes = x.classes) : x'.Before y :=
  ⟨by rw [hbridges]; exact h.bridges, by rw [hclasses]; exact h.classes⟩

end State

/-- A world with a past whose bridges list classes, as they did whenever a step began or ended. -/
structure World.Enlisted (w : World) : Prop extends w.Chronicled where
  listed : w.state.Listed
  recalled : ∀ x, w.history (.step x) → x.Listed

/-- A later world whose bridges know as much, as they did whenever a step began or ended meanwhile. -/
structure World.Enlarges (w w' : World) : Prop extends w.Extends w' where
  before : w.state.Before w'.state
  met : ∀ x, w'.history (.step x) → w.history (.step x) ∨ w.state.Before x

namespace World

variable {w'' : World}

theorem Enlarges.refl (w : World) : w.Enlarges w := ⟨.refl w, .refl _, fun _ => .inl⟩

theorem Enlarges.trans (h : w.Enlarges w') (h' : w'.Enlarges w'') : w.Enlarges w'' := by
  refine ⟨h.toExtends.trans h'.toExtends, h.before.trans h'.before, fun x hx => ?_⟩
  rcases h'.met x hx with hx | hx
  · exact h.met x hx
  · exact .inr (h.before.trans hx)

theorem Enlisted.step (hw : w.Enlisted) (hg : chronicle.Good w w') (hlisted : w'.state.Listed)
    (hbefore : w.state.Before w'.state) (hhistory : w'.history = w.history) :
    w'.Enlisted ∧ w.Enlarges w' :=
  ⟨⟨hg.1, hlisted, fun x hx => hw.recalled x (hhistory ▸ hx)⟩, hg.2, hbefore, fun _ hx => .inl (hhistory ▸ hx)⟩

theorem Enlisted.aside (hw : w.Enlisted) (hg : chronicle.Good w w') (hbridges : w'.bridges = w.bridges)
    (hclasses : w'.classes = w.classes) (hhistory : w'.history = w.history) :
    w'.Enlisted ∧ w.Enlarges w' := by
  refine hw.step hg (fun b br hbr => ?_) ⟨fun b br hbr => ⟨br, ?_, List.suffix_refl _⟩, ?_⟩ hhistory
  · have hbr : w'.bridges[b]? = some br := hbr
    rw [hbridges] at hbr
    show br.Lists w'.classes
    rw [hclasses]
    exact hw.listed b br hbr
  · show w'.bridges[b]? = some br
    rw [hbridges]
    exact hbr
  · show Retains _ w.classes w'.classes
    rw [hclasses]
    exact .refl _ _

theorem Enlisted.classes {classes : Array ClassDecl} (hw : w.Enlisted) (hg : chronicle.Good w { w with classes })
    (hc : Retains (fun d : ClassDecl => (d.type, d.resource)) w.classes classes) :
    World.Enlisted { w with classes } ∧ w.Enlarges { w with classes } :=
  hw.step hg (fun b br hbr => (hw.listed b br hbr).retain hc) ⟨fun _ br hbr => ⟨br, hbr, List.suffix_refl _⟩, hc⟩ rfl

theorem Enlisted.bridges (hw : w.Enlisted) (hg : chronicle.Good w w')
    (hclasses : w'.classes = w.classes) (hhistory : w'.history = w.history)
    (hforth : ∀ (b : BridgeId) br, w.bridges[b]? = some br →
      ∃ br', w'.bridges[b]? = some br' ∧ br.classes <:+ br'.classes)
    (hback : ∀ (b : BridgeId) br', w'.bridges[b]? = some br' → br'.Lists w.classes) :
    w'.Enlisted ∧ w.Enlarges w' := by
  refine hw.step hg (fun b br' hbr' => ?_) ⟨hforth, ?_⟩ hhistory
  · show br'.Lists w'.classes
    rw [hclasses]
    exact hback b br' hbr'
  · show Retains _ w.classes w'.classes
    rw [hclasses]
    exact .refl _ _

end World

/-! ## The regime -/

namespace Regime

theorem enlisted_silent (hw : w.Enlisted) (h : w.Silent w') : w'.Enlisted ∧ w.Enlarges w' := by
  have hg := chronicle.silent hw.toChronicled h
  have hlisted : w'.state.Listed := h.state ▸ hw.listed
  refine ⟨⟨hg.1, hlisted, fun x hx => ?_⟩, hg.2, h.state ▸ .refl _, fun x hx => ?_⟩
  · rcases h.recalled _ hx with hx | hx
    · exact hw.recalled x hx
    · exact Moment.step.inj hx ▸ hw.listed
  · rcases h.recalled _ hx with hx | hx
    · exact .inl hx
    · exact .inr (Moment.step.inj hx ▸ .refl _)

theorem enlisted_misfit (hw : w.Enlisted) (hg : chronicle.Good w (w.recalling (.misfit w.state))) :
    (w.recalling (.misfit w.state)).Enlisted ∧ w.Enlarges (w.recalling (.misfit w.state)) := by
  have hstate := state_recalling w (.misfit w.state)
  have hpast : ∀ x, (w.recalling (.misfit w.state)).history (.step x) → w.history (.step x) := fun x hx =>
    (history_recalling hx).elim id fun he => by cases he
  have hlisted : (w.recalling (.misfit w.state)).state.Listed := hstate.symm ▸ hw.listed
  exact ⟨⟨hg.1, hlisted, fun x hx => hw.recalled x (hpast x hx)⟩, hg.2, hstate.symm ▸ .refl _,
    fun x hx => .inl (hpast x hx)⟩

def enrolment : Regime where
  inv := World.Enlisted
  rel := World.Enlarges
  deep := chronicle.deep
  sound hw := hw.sound
  later h := h.toLater
  refl := World.Enlarges.refl
  trans := World.Enlarges.trans
  silent := enlisted_silent
  misfit hw _ hc _ htypes hmisfit :=
    enlisted_misfit hw (chronicle.misfit hw.toChronicled trivial hc trivial htypes hmisfit)
  amend hw hs ha := hw.aside (chronicle.amend hw.toChronicled hs ha) rfl rfl rfl
  alloc hw hs hblank _ _ := hw.aside (chronicle.alloc hw.toChronicled hs hblank
    (fun _ _ _ _ _ => ⟨trivial, trivial⟩) fun _ _ _ _ => trivial) rfl rfl rfl
  alter {w w'} hw ha := by
    have hg : chronicle.Good w w' := chronicle.alter hw.toChronicled ha
    cases ha with
    | newClass => exact hw.classes hg (retains_push _ _ _)
    | editClass hf => exact hw.classes hg (retains_modify _ _ fun d => Prod.ext (hf d).1.2 (hf d).2)
    | @editBridge b f hf =>
      refine hw.bridges hg rfl rfl (fun k br hbr => ?_) fun k br' hbr' => ?_
      · obtain ⟨br', hbr', he⟩ := modify_forth (f := f) (fun x => (hf x).2.1) hbr
        have hclasses : br'.classes = br.classes := congrArg Prod.fst he
        exact ⟨br', hbr', hclasses ▸ List.suffix_refl _⟩
      · obtain ⟨br, hbr, he⟩ := getElem?_modify_back (f := f) (fun x => (hf x).2.1) hbr'
        exact (hw.listed k br hbr).congr he
    | @enroll b br c d hd hbr hnone =>
      refine hw.bridges hg rfl rfl (fun k x hx => ?_) fun k x' hx' => ?_
      · show ∃ x', (w.bridges.modify b (·.enroll c d))[k]? = some x' ∧ _
        rw [Array.getElem?_modify, hx]
        split
        · exact ⟨_, rfl, List.suffix_cons _ _⟩
        · exact ⟨x, rfl, List.suffix_refl _⟩
      · rcases modify_cases hx' with ⟨rfl, x, hx, rfl⟩ | ⟨-, hx⟩
        · cases hbr.symm.trans hx
          exact (hw.listed k br hbr).enroll hd hnone
        · exact hw.listed k x' hx
    | _ => exact hw.aside hg rfl rfl rfl
  issue hw hi := by
    have hg := chronicled_aside hw.toChronicled hi.aside
    cases hi <;> exact ⟨hw.aside hg rfl rfl rfl, trivial⟩

-- Chronicles are shown to be kept already, and changes of heaps are beside bridges and classes.
instance : Elaborates enrolment where
  chronicled := World.Enlisted.toChronicled
  extended := World.Enlarges.toExtends
  rest {w _ _ _} (hw : w.Enlisted) _ hc _ _ _ _ := ⟨hc, hw.listed, hw.recalled⟩
  swept {w _ _ _ _} (hw : w.Enlisted) _ _ _ _ hc := ⟨hc, hw.listed, hw.recalled⟩
  around {w w' heaps _ orderly} hrel hext := by
    have hrel : World.Enlarges { w with heaps, orderly } w' := hrel
    exact ⟨hext, ⟨hrel.before.bridges, hrel.before.classes⟩, fun x hx => (hrel.met x hx).imp_right (·.congr rfl rfl)⟩

instance : IsPlain enrolment where
  books {w w'} hw hb := by
    have hw : w.Enlisted := hw
    have hg : chronicle.Good w w' := IsPlain.books hw.toChronicled hb
    refine hw.bridges hg hb.classes hb.history (fun b br hbr => ?_) fun b br' hbr' => ?_
    · obtain ⟨br', hbr', he⟩ := hb.bridges b br hbr
      have hclasses : br'.classes = br.classes := congrArg (·.2.1) he
      exact ⟨br', hbr', hclasses ▸ List.suffix_refl _⟩
    · rcases hb.tables b br' hbr' with ⟨br, hbr, he⟩ | he
      · exact (hw.listed b br hbr).congr he
      · exact .empty he _
  turn {w h s s'} hw hs ht := by
    have hw : w.Enlisted := hw
    exact hw.aside (IsPlain.turn hw.toChronicled hs ht) rfl rfl rfl
  newHeap {w limits storage ownsStorage logs} hw hdepth := by
    have hw : w.Enlisted := hw
    exact hw.aside (IsPlain.newHeap hw.toChronicled hdepth) rfl rfl rfl


theorem enlisted_world (script : Script) (n : Nat) (recording : Bool) : (script.world n recording).Enlisted :=
  inv_world (R := enrolment) ⟨chronicled_start _ _, fun b br hbr => absurd hbr (by simp [state]), fun x hx => hx.elim⟩

end Regime

/-! ## Looking classes up -/

theorem M.Reads.bind_cases {α β : Type} {x : M α} {f : α → M β} (hx : M.Reads x) {w w' : World}
    {r : Except Stop β} (h : (x >>= f).exec w = (r, w')) :
    (∃ stop, r = .error stop ∧ w' = w) ∨ ∃ a, x.exec w = (.ok a, w) ∧ (f a).exec w = (r, w') := by
  rcases he : x.exec w with ⟨stop | a, w1⟩
  · obtain rfl := hx.exec he
    cases (bind_error he).symm.trans h
    exact .inl ⟨stop, rfl, rfl⟩
  · obtain rfl := hx.exec he
    exact .inr ⟨a, rfl, (bind_ok he).symm.trans h⟩

theorem Bridge.exec_register_cases {w w' : World} {b : BridgeId} {c : ClassId} {r : Except Stop Unit}
    (he : (register b c).exec w = (r, w')) :
    (∃ stop, r = .error stop ∧ w' = w) ∨ ∃ d br, r = .ok () ∧ w.classes[c]? = some d ∧ w.bridges[b]? = some br ∧
        (br.classes.lookup d.type = some c ∧ w' = w ∨ br.classes.lookup d.type = none ∧
            ∃ log, w' = { w with bridges := w.bridges.modify b (·.enroll c d), log }) := by
  rcases (reads_checkDeclared c).bind_cases he with hfail | ⟨_, -, he⟩
  · exact .inl hfail
  rcases (reads_classDecl c).bind_cases he with hfail | ⟨d, hd, he⟩
  · exact .inl hfail
  rcases (reads_bridge b).bind_cases he with hfail | ⟨br, hbr, he⟩
  · exact .inl hfail
  obtain ⟨hd, -⟩ := exec_classDecl_eq_ok.mp hd
  obtain ⟨hbr, -⟩ := exec_bridge_eq_ok.mp hbr
  split at he
  case h_1 known hknown =>
    split at he
    case isTrue hsame =>
      cases he
      exact .inr ⟨d, br, rfl, hd, hbr, .inl ⟨hsame ▸ hknown, rfl⟩⟩
    case isFalse =>
      rcases (reads_classDecl known).bind_cases he with hfail | ⟨_, -, he⟩
      · exact .inl hfail
      · cases he
        exact .inl ⟨_, rfl, rfl⟩
  case h_2 hnone =>
    obtain ⟨log, hlog⟩ := exec_log br.logs .debug "class registered"
      [("class", .text d.name), ("go_type", .text d.type.text)]
      { w with bridges := w.bridges.modify b (·.enroll c d) }
    cases hlog.symm.trans he
    exact .inr ⟨d, br, rfl, hd, hbr, .inr ⟨hnone, log, rfl⟩⟩

/-- A bridge lists a class with the type and the resource of a declaration. -/
structure State.Lists (x : State) (b : BridgeId) (c : ClassId) (d : ClassDecl) : Prop where
  listed : ∃ br, x.bridges[b]? = some br ∧ (d.type, c) ∈ br.classes
  declared : ∃ d', x.classes[c]? = some d' ∧ (d'.type, d'.resource) = (d.type, d.resource)

/-- A bridge finds a class by the native type of its declaration, and by the resource unless a class with
that resource was listed after it. -/
def State.Finds (x : State) (b : BridgeId) (c : ClassId) (d : ClassDecl) : Prop :=
  ∃ br later earlier, x.bridges[b]? = some br ∧ br.classes = later ++ (d.type, c) :: earlier ∧
    ∀ v : World, v.state = x → (classForType b d.type).exec v = (.ok c, v) ∧
      ∀ r, d.resource = some r → ((classForResource b r).exec v = (.ok c, v) ↔
        ∀ e ∈ later, resourceId? x.classes e.2 ≠ some r.id)

namespace State

variable {b : BridgeId}

theorem Lists.later (h : x.Lists b c d) (hbefore : x.Before y) : y.Lists b c d := by
  obtain ⟨⟨br, hbr, hmem⟩, d', hd', he⟩ := h
  obtain ⟨br', hbr', hsuffix⟩ := hbefore.bridges b br hbr
  obtain ⟨d'', hd'', he'⟩ := hbefore.classes c d' hd'
  exact ⟨⟨br', hbr', hsuffix.subset hmem⟩, d'', hd'', he'.trans he⟩

theorem Lists.finds (h : x.Lists b c d) (hx : x.Listed) : x.Finds b c d := by
  obtain ⟨⟨br, hbr, hmem⟩, d', hd', he⟩ := h
  obtain ⟨later, earlier, hlist⟩ := List.append_of_mem hmem
  have hlists := hx b br hbr
  refine ⟨br, later, earlier, hbr, hlist, fun v hv => ?_⟩
  have hb : (bridge b).exec v = (.ok br, v) := exec_bridge_eq_ok.mpr ⟨by rw [← hv] at hbr; exact hbr, rfl⟩
  constructor
  · unfold classForType
    rw [bind_ok hb, hlists.lookup_type hlist]
    rfl
  · intro r hr
    have hid : resourceId? x.classes c = some r.id := by
      unfold resourceId?
      rw [hd', Option.bind_some, (Prod.mk.inj he).2, hr]
      rfl
    rw [← hlists.lookup_resource hlist hid]
    unfold classForResource
    rw [bind_ok hb]
    cases br.resources.lookup r.id with
    | none => simp
    | some k => simp

end State

theorem Bridge.lists_register {w w' : World} {b : BridgeId} {c : ClassId}
    (he : (register b c).exec w = (.ok (), w')) :
    ∃ d, w.classes[c]? = some d ∧ w'.state.Lists b c d := by
  rcases exec_register_cases he with ⟨_, hr, -⟩ | ⟨d, br, -, hd, hbr, hcases⟩
  · simp at hr
  · refine ⟨d, hd, ?_⟩
    rcases hcases with ⟨hknown, rfl⟩ | ⟨-, log, rfl⟩
    · obtain ⟨l1, l2, hlist, -⟩ := List.lookup_eq_some_iff.mp hknown
      exact ⟨⟨br, hbr, by simp [hlist]⟩, d, hd, rfl⟩
    · exact ⟨⟨br.enroll c d, modify_self hbr, List.mem_cons_self⟩, d, hd, rfl⟩

/-- **Classes are found.** Wherever native code stands (`enlisted_world`), registering a class that fails
changes nothing. After it has succeeded, the bridge finds the class by its native type whatever is run, in
every state that is met, and it finds it by its resource exactly until it comes to know another class with
that resource. What the bridge counts are the classes that it lists, each once. -/
theorem registered_classes_found {w : World} (hw : w.Enlisted) (b : BridgeId) (c : ClassId) :
    (∀ stop w', (Bridge.register b c).exec w = (.error stop, w') → w' = w) ∧
    (∀ w', (Bridge.register b c).exec w = (.ok (), w') → ∃ d, w.classes[c]? = some d ∧
      ∀ (n : Nat) (outermost : Bool) (p : Program), ((p.run (hostAt n) outermost).after w').Enlisted ∧
        ((p.run (hostAt n) outermost).after w').state.Finds b c d ∧
        ∀ x, ((p.run (hostAt n) outermost).after w').history (.step x) → w'.history (.step x) ∨ x.Finds b c d) ∧
    ∀ (x : State) (br : Bridge), w.Met x → x.bridges[b]? = some br →
      br.stats.classes = br.classes.length ∧ (br.classes.map (·.2)).Nodup := by
  refine ⟨fun stop w' he => ?_, fun w' he => ?_, fun x br hx hbr => ?_⟩
  · rcases Bridge.exec_register_cases he with ⟨_, -, rfl⟩ | ⟨_, _, hr, -⟩
    · rfl
    · exact absurd hr (by simp)
  · obtain ⟨d, hd, hlists⟩ := Bridge.lists_register he
    refine ⟨d, hd, fun n outermost p => ?_⟩
    have hw' : w'.Enlisted := ((keeps_register (R := enrolment) (F := noFact) b c).exec hw trivial he).1
    obtain ⟨hend, hrel⟩ := keeps_run (R := enrolment) (F := noFact) (plain_upholds (plain_serves n))
      outermost p w' hw' trivial
    have hrel : w'.Enlarges ((p.run (hostAt n) outermost).after w') := hrel
    refine ⟨hend, (hlists.later hrel.before).finds hend.listed, fun x hx => ?_⟩
    exact (hrel.met x hx).imp_right fun hbefore => (hlists.later hbefore).finds (hend.recalled x hx)
  · have hlisted : x.Listed := hx.elim (hw.recalled x) fun he => he ▸ hw.listed
    exact ⟨(hlisted b br hbr).count, (hlisted b br hbr).ids⟩

def toolResource : WitDef := .mk 0 (some "tool") (.other .resource)

def twoTools : Script :=
  .ofSteps [.bridge (.make false false),
        .classes (.declare "G" (.object .gadget) "Gadget" (.defined toolResource)),
        .classes (.declare "S" (.object .spanner) "Spanner" (.defined toolResource))]

def registersSpanners : Program :=
  .ofList [.classes (.register (some "S")), .classes (.register (some "G"))]

/-- Gadgets are registered and stay the class of their type, but spanners become the class of tools and
remain it although gadgets are registered once more. -/
theorem registered_classes_found_twoTools : ∃ w d, (Bridge.register 0 0).exec (twoTools.world 2 true) = (.ok (), w) ∧
    (twoTools.world 2 true).classes[0]? = some d ∧ d.resource = some toolResource ∧
    ((registersSpanners.run (hostAt 2) true).after w).state.Finds 0 0 d ∧
    ((Bridge.classForType 0 (.object .gadget)).exec
      ((registersSpanners.run (hostAt 2) true).after w)).1.toOption = some 0 ∧
    ((Bridge.classForResource 0 toolResource).exec
      ((registersSpanners.run (hostAt 2) true).after w)).1.toOption = some 1 := by
  have hstart : (((Bridge.register 0 0).exec (twoTools.world 2 true)).1.toOption,
      (twoTools.world 2 true).classes[0]?.map (·.resource)) = (some (), some (some toolResource)) := by
    decide +kernel
  have hend : ((Bridge.classForType 0 (.object .gadget)).exec ((registersSpanners.run (hostAt 2) true).after
        ((Bridge.register 0 0).after (twoTools.world 2 true)))).1.toOption = some 0 ∧
      ((Bridge.classForResource 0 toolResource).exec ((registersSpanners.run (hostAt 2) true).after
        ((Bridge.register 0 0).after (twoTools.world 2 true)))).1.toOption = some 1 := by
    decide +kernel
  have hw := enlisted_world twoTools 2 true
  generalize twoTools.world 2 true = w at *
  rcases he : (Bridge.register 0 0).exec w with ⟨stop | ⟨⟩, w'⟩
  · rw [he] at hstart
    exact absurd (Prod.mk.inj hstart).1 (by simp [Except.toOption])
  · rw [M.after_eq he] at hend
    obtain ⟨-, hfound, -⟩ := registered_classes_found hw 0 0
    obtain ⟨d, hd, hruns⟩ := hfound w' he
    obtain ⟨d', hd', hresource⟩ := Option.map_eq_some_iff.mp (Prod.mk.inj hstart).2
    obtain rfl := Option.some.inj (hd.symm.trans hd')
    exact ⟨w', d, rfl, hd, hresource, (hruns 2 true registersSpanners).2.1, hend⟩

end Tether
