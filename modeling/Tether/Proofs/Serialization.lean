import Mathlib.Data.List.Induction
import Tether.Executor.Schedule
import Tether.Proofs.Posting

/-!
# Executors do one job at a time

The moves of an executor, of its callers and of its closers may come in any order that
`Executor.step?` allows. What holds of every order is read off the list of moves.
-/

namespace Tether

namespace Move

variable {σ ρ : Type}

def starts (i : Nat) : Move σ ρ → Bool
  | receive j => i == j
  | _ => false

def works : Move σ ρ → Bool
  | receive _ | finish => true
  | _ => false

def job? : Move σ ρ → Option (σ → ρ × σ)
  | submit job => some job
  | _ => none

theorem starts_iff {i : Nat} {m : Move σ ρ} : m.starts i = true ↔ m = receive i := by
  cases m with
  | receive j => exact ⟨fun h => congrArg receive (eq_of_beq h).symm, fun h => by simp_all [starts]⟩
  | _ => exact ⟨fun h => absurd h (by simp [starts]), nofun⟩

end Move

namespace Executor

variable {σ ρ : Type} {close : σ → Option σ} {e e' : Executor σ ρ} {m : Move σ ρ}
  {moves a b : List (Move σ ρ)} {i j : Nat}

/-! ## Steps -/

/-- One move of an executor. -/
inductive Step (close : σ → Option σ) (e : Executor σ ρ) : Move σ ρ → Executor σ ρ → Prop
  | submit (job : σ → ρ × σ) : Step close e (.submit job) { e with callers := e.callers.push { job } }
  | cancel (i : Nat) : Step close e (.cancel i) (e.setCaller i fun c => { c with cancelled := true })
  | receive {i : Nat} {c : Caller σ ρ} : e.activity = .free → e.callers[i]? = some c →
      c.state = .offering → Step close e (.receive i)
        { e.setCaller i fun c => { c with state := .waiting } with activity := .running i }
  | finish {i : Nat} {c : Caller σ ρ} : e.activity = .running i → e.callers[i]? = some c → Step close e .finish
        { e.setCaller i fun x => { x with result := some (c.job e.state).1 } with
          activity := .free, state := (c.job e.state).2 }
  | deliver {i : Nat} {c : Caller σ ρ} {r : ρ} : e.callers[i]? = some c → c.state = .waiting →
      c.result = some r → Step close e (.deliver i) (e.returning i (.result r))
  | giveUp {i : Nat} {c : Caller σ ρ} : e.callers[i]? = some c → c.cancelled = true →
      c.state = .offering ∨ c.state = .waiting → Step close e (.giveUp i) (e.returning i .cancelled)
  | refuse {i : Nat} {c : Caller σ ρ} : e.activity = .stopped → e.callers[i]? = some c →
      c.state = .offering → Step close e (.refuse i) (e.returning i .closed)
  | askClose : Step close e .askClose { e with closing := true, closers := e.closers.push false }
  | quit : e.activity = .free → e.closing = true → Step close e .quit { e with activity := .closing }
  | shut {s : σ} : e.activity = .closing → close e.state = some s →
      Step close e .shut { e with activity := .stopped, state := s }
  | closed {j : Nat} : e.activity = .stopped → e.closers[j]? = some false →
      Step close e (.closed j) { e with closers := e.closers.set! j true }

theorem step_of_step? (h : e.step? close m = some e') : Step close e m e' := by
  cases m with
  | submit job =>
    cases h
    exact .submit job
  | cancel i =>
    cases h
    exact .cancel i
  | askClose =>
    cases h
    exact .askClose
  | receive i =>
    simp only [step?] at h
    split at h
    · rename_i job cancelled result hfree hc
      cases h
      exact .receive hfree hc rfl
    · simp at h
  | finish =>
    simp only [step?] at h
    split at h
    · rename_i i hrunning
      split at h
      · rename_i c hc
        cases h
        exact .finish hrunning hc
      · simp at h
    · simp at h
  | deliver i =>
    simp only [step?] at h
    split at h
    · rename_i job cancelled r hc
      cases h
      exact .deliver hc rfl rfl
    · simp at h
  | giveUp i =>
    simp only [step?] at h
    split at h
    · rename_i job result hc
      cases h
      exact .giveUp hc rfl (.inl rfl)
    · rename_i job result hc
      cases h
      exact .giveUp hc rfl (.inr rfl)
    · simp at h
  | refuse i =>
    simp only [step?] at h
    split at h
    · rename_i job cancelled result hstopped hc
      cases h
      exact .refuse hstopped hc rfl
    · simp at h
  | quit =>
    simp only [step?] at h
    split at h
    · rename_i hfree hclosing
      cases h
      exact .quit hfree hclosing
    · simp at h
  | shut =>
    simp only [step?] at h
    split at h
    · rename_i s hactivity hs
      cases h
      exact .shut hactivity hs
    · simp at h
  | closed j =>
    simp only [step?] at h
    split at h
    · rename_i hstopped hj
      cases h
      exact .closed hstopped hj
    · simp at h

/-- What a move may do to a caller. -/
structure Alters (e : Executor σ ρ) (m : Move σ ρ) (i : Nat) (c c' : Caller σ ρ) : Prop where
  job : c'.job = c.job
  state : c'.state = c.state ∨ c.state = .offering ∧ c'.state = .waiting ∨
    (∃ r, c.state = .waiting ∧ c.result = some r ∧ c'.state = .returned (.result r)) ∨
    c'.state = .returned .cancelled ∨
    e.activity = .stopped ∧ c.state = .offering ∧ c'.state = .returned .closed
  result : c'.result = c.result ∨ m = .finish ∧ e.activity = .running i ∧ c'.result = some (c.job e.state).1
  starts : m.starts i = true → c.state = .offering ∧ c'.state = .waiting

theorem Alters.refl (e : Executor σ ρ) (c : Caller σ ρ) (h : m.starts i = false) : Alters e m i c c :=
  ⟨rfl, .inl rfl, .inl rfl, fun hi => absurd (h.symm.trans hi) nofun⟩

theorem alters_setCaller {f : Caller σ ρ → Caller σ ρ} {c0 : Caller σ ρ} {k : Nat}
    (hk : e.callers[k]? = some c0) (hf : Alters e m k c0 (f c0))
    (hm : ∀ i, i ≠ k → m.starts i = false) {c' : Caller σ ρ}
    (h : (e.callers.modify k f)[i]? = some c') :
    ∃ c, e.callers[i]? = some c ∧ Alters e m i c c' := by
  rcases modify_cases h with ⟨rfl, c, hc, rfl⟩ | ⟨hne, hc⟩
  · cases hk.symm.trans hc
    exact ⟨c0, hk, hf⟩
  · exact ⟨c', hc, .refl e c' (hm i hne)⟩

theorem Step.caller (h : Step close e m e') {c' : Caller σ ρ} (hc : e'.callers[i]? = some c') :
    (∃ c, e.callers[i]? = some c ∧ Alters e m i c c') ∨
      i = e.callers.size ∧ m.starts i = false ∧ c'.state = .offering ∧ c'.result = none := by
  cases h with
  | submit job =>
    rw [Array.getElem?_push] at hc
    split at hc
    case isTrue hi =>
      cases hc
      exact .inr ⟨hi, rfl, rfl, rfl⟩
    case isFalse => exact .inl ⟨c', hc, .refl e c' rfl⟩
  | cancel k =>
    left
    cases hk : e.callers[k]? with
    | none =>
      rw [setCaller, World.modify_eq_self_of_none hk] at hc
      exact ⟨c', hc, .refl e c' rfl⟩
    | some c0 => exact alters_setCaller hk ⟨rfl, .inl rfl, .inl rfl, Bool.noConfusion⟩ (fun _ _ => rfl) hc
  | receive hfree hk hoffering =>
    refine .inl (alters_setCaller hk
      ⟨rfl, .inr (.inl ⟨hoffering, rfl⟩), .inl rfl, fun _ => ⟨hoffering, rfl⟩⟩ ?_ hc)
    exact fun i hi => beq_eq_false_iff_ne.mpr hi
  | finish hrunning hk =>
    exact .inl (alters_setCaller hk ⟨rfl, .inl rfl, .inr ⟨rfl, hrunning, rfl⟩, Bool.noConfusion⟩
      (fun _ _ => rfl) hc)
  | deliver hk hwaiting hr =>
    exact .inl (alters_setCaller hk
      ⟨rfl, .inr (.inr (.inl ⟨_, hwaiting, hr, rfl⟩)), .inl rfl, Bool.noConfusion⟩ (fun _ _ => rfl) hc)
  | giveUp hk _ hstate =>
    exact .inl (alters_setCaller hk ⟨rfl, .inr (.inr (.inr (.inl rfl))), .inl rfl, Bool.noConfusion⟩
      (fun _ _ => rfl) hc)
  | refuse hstopped hk hoffering =>
    exact .inl (alters_setCaller hk
      ⟨rfl, .inr (.inr (.inr (.inr ⟨hstopped, hoffering, rfl⟩))), .inl rfl, Bool.noConfusion⟩
      (fun _ _ => rfl) hc)
  | askClose | quit | shut | closed => exact .inl ⟨c', hc, .refl e c' rfl⟩

theorem jobs_setCaller (e : Executor σ ρ) (k : Nat) {f : Caller σ ρ → Caller σ ρ} (hf : ∀ c, (f c).job = c.job) :
    (e.setCaller k f).callers.toList.map (·.job) = e.callers.toList.map (·.job) ++ [] := by
  rw [List.append_nil]
  refine List.ext_getElem? fun n => ?_
  simp only [setCaller, List.getElem?_map, Array.getElem?_toList, Array.getElem?_modify]
  split
  · cases e.callers[n]? <;> simp [hf]
  · rfl

theorem Step.jobs (h : Step close e m e') :
    e'.callers.toList.map (·.job) = e.callers.toList.map (·.job) ++ m.job?.toList := by
  cases h with
  | submit job => simp [Move.job?]
  | cancel | receive | finish | deliver | giveUp | refuse => exact jobs_setCaller e _ fun _ => rfl
  | askClose | quit | shut | closed => exact (List.append_nil _).symm

theorem Step.forth (h : Step close e m e') {c : Caller σ ρ} (hc : e.callers[i]? = some c) :
    ∃ c', e'.callers[i]? = some c' ∧ Alters e m i c c' := by
  have hsize : e.callers.size ≤ e'.callers.size := by
    have hlength := congrArg List.length h.jobs
    simp only [List.length_map, List.length_append, Array.length_toList] at hlength
    omega
  have hi : i < e.callers.size := (Array.getElem?_eq_some_iff.mp hc).1
  have hc' := Array.getElem?_eq_getElem (Nat.lt_of_lt_of_le hi hsize)
  refine ⟨_, hc', ?_⟩
  rcases h.caller hc' with ⟨c0, hc0, halters⟩ | ⟨hsame, -⟩
  · exact Option.mem_unique hc hc0 ▸ halters
  · omega

theorem Step.activity (h : Step close e m e') : m.works = false ∧ e'.activity = e.activity ∧ e'.state = e.state ∨
    (∃ i c, m = .receive i ∧ e.activity = .free ∧ e'.activity = .running i ∧
      e.callers[i]? = some c ∧ c.state = .offering) ∨
    (∃ i, m = .finish ∧ e.activity = .running i ∧ e'.activity = .free) ∨
    m = .quit ∧ e.activity = .free ∧ e'.activity = .closing ∨
    m = .shut ∧ e.activity = .closing ∧ e'.activity = .stopped ∧ close e.state = some e'.state := by
  cases h with
  | receive hfree hc hoffering => exact .inr (.inl ⟨_, _, rfl, hfree, rfl, hc, hoffering⟩)
  | finish hrunning hc => exact .inr (.inr (.inl ⟨_, rfl, hrunning, rfl⟩))
  | quit hfree hclosing => exact .inr (.inr (.inr (.inl ⟨rfl, hfree, rfl⟩)))
  | shut hactivity hs => exact .inr (.inr (.inr (.inr ⟨rfl, hactivity, rfl, hs⟩)))
  | submit | cancel | deliver | giveUp | refuse | askClose | closed => exact .inl ⟨rfl, rfl, rfl⟩

/-! ## Runs -/

theorem run?_cons_eq_some : e.run? close (m :: moves) = some e' ↔
    ∃ e1, e.step? close m = some e1 ∧ e1.run? close moves = some e' := by
  simp [run?, List.foldlM_cons, Option.bind_eq_some_iff]

theorem run?_append_eq_some : e.run? close (a ++ b) = some e' ↔
    ∃ e1, e.run? close a = some e1 ∧ e1.run? close b = some e' := by
  simp [run?, List.foldlM_append, Option.bind_eq_some_iff]

theorem run_keeps (P : Executor σ ρ → Prop) (ok : Move σ ρ → Prop)
    (hstep : ∀ e e' m, P e → Step close e m e' → ok m → P e') (he : P e)
    (hrun : e.run? close moves = some e') (hok : ∀ m ∈ moves, ok m) : P e' := by
  induction moves generalizing e with
  | nil => exact Option.some.inj hrun ▸ he
  | cons m rest ih =>
    obtain ⟨e1, hm, hrest⟩ := run?_cons_eq_some.mp hrun
    refine ih (hstep e e1 m he (step_of_step? hm) (hok m List.mem_cons_self)) hrest ?_
    exact fun m' hm' => hok m' (List.mem_cons_of_mem m hm')

theorem run_induction {P : List (Move σ ρ) → Executor σ ρ → Prop} (hnil : P [] e)
    (hstep : ∀ a m e1 e2, e.run? close a = some e1 → P a e1 → Step close e1 m e2 → P (a ++ [m]) e2)
    (hrun : e.run? close moves = some e') : P moves e' := by
  induction moves using List.reverseRecOn generalizing e' with
  | nil => exact Option.some.inj hrun ▸ hnil
  | append_singleton a m ih =>
    obtain ⟨e1, ha, hlast⟩ := run?_append_eq_some.mp hrun
    obtain ⟨e2, hm, hend⟩ := run?_cons_eq_some.mp hlast
    obtain rfl := Option.some.inj hend
    exact hstep a m e1 e2 ha (ih ha) (step_of_step? hm)

/-! ## What lasts -/

theorem run_returned {c : Caller σ ρ} (hc : e.callers[i]? = some c) (hstate : c.state ≠ .offering)
    (hrun : e.run? close moves = some e') : moves.countP (Move.starts i) = 0 := by
  induction moves generalizing e c with
  | nil => rfl
  | cons m rest ih =>
    obtain ⟨e1, hm, hrest⟩ := run?_cons_eq_some.mp hrun
    have hm := step_of_step? hm
    obtain ⟨c', hc', halters⟩ := hm.forth hc
    have hstate' : c'.state ≠ .offering := by
      rcases halters.state with h | ⟨h, -⟩ | ⟨r, -, -, h⟩ | h | ⟨-, -, h⟩
      · rwa [h]
      · exact absurd h hstate
      · rw [h]; nofun
      · rw [h]; nofun
      · rw [h]; nofun
    rw [List.countP_cons_of_neg fun hi => hstate (halters.starts hi).1]
    exact ih hc' hstate' hrest

theorem run_running (hrunning : e.activity = .running i) (hrun : e.run? close moves = some e')
    (hend : .finish ∉ moves) : e'.activity = .running i := by
  refine run_keeps (fun e => e.activity = .running i) (fun m => m ≠ .finish) ?_ hrunning hrun
    (fun m hm he => hend (he ▸ hm))
  intro e e' m he hm hne
  rcases hm.activity with ⟨-, h, -⟩ | ⟨j, c, -, h, -⟩ | ⟨j, h, -⟩ | ⟨-, h, -⟩ | ⟨-, h, -⟩
  · exact h.trans he
  · cases he.symm.trans h
  · exact absurd h hne
  · cases he.symm.trans h
  · cases he.symm.trans h

theorem run_quit (hquit : e.activity = .closing ∨ e.activity = .stopped)
    (hrun : e.run? close moves = some e') : ∀ j, .receive j ∉ moves := by
  induction moves generalizing e with
  | nil => simp
  | cons m rest ih =>
    obtain ⟨e1, hm, hrest⟩ := run?_cons_eq_some.mp hrun
    intro j hj
    rcases (step_of_step? hm).activity with
      ⟨hworks, h, -⟩ | ⟨k, c, -, h, -⟩ | ⟨k, -, h, -⟩ | ⟨-, h, -⟩ | ⟨hm, -, h, -⟩
    · rcases List.mem_cons.mp hj with rfl | hj
      · simp [Move.works] at hworks
      · exact ih (h ▸ hquit) hrest j hj
    · simp [h] at hquit
    · simp [h] at hquit
    · simp [h] at hquit
    · rcases List.mem_cons.mp hj with hj | hj
      · simpa using hj.trans hm
      · exact ih (.inr h) hrest j hj

theorem run_stopped (hstopped : e.activity = .stopped) (hrun : e.run? close moves = some e') :
    e'.activity = .stopped ∧ e'.state = e.state := by
  refine run_keeps (fun e' => e'.activity = .stopped ∧ e'.state = e.state) (fun _ => True) ?_
    ⟨hstopped, rfl⟩ hrun fun _ _ => trivial
  rintro e1 e2 m ⟨hs, hstate⟩ hm -
  rcases hm.activity with ⟨-, h, h'⟩ | ⟨j, c, -, h, -⟩ | ⟨j, -, h, -⟩ | ⟨-, h, -⟩ | ⟨-, h, -⟩
  · exact ⟨h.trans hs, h'.trans hstate⟩
  · cases hs.symm.trans h
  · cases hs.symm.trans h
  · cases hs.symm.trans h
  · cases hs.symm.trans h

/-! ## What an executor shows -/

/-- A caller's job, once it was received, ran to its end on the state that the executor had then, with a
result. -/
def Completed (close : σ → Option σ) (s0 : σ) (moves : List (Move σ ρ)) (i : Nat) (r : ρ) : Prop :=
  ∃ a b c e1 job, moves = a ++ .receive i :: (b ++ .finish :: c) ∧ (∀ m ∈ b, m.works = false) ∧
    run? close { state := s0 } (a ++ .receive i :: b) = some e1 ∧
    (moves.filterMap Move.job?)[i]? = some job ∧ (job e1.state).1 = r

theorem Completed.append {s0 : σ} {r : ρ} (h : Completed close s0 a i r) (b : List (Move σ ρ)) :
    Completed close s0 (a ++ b) i r := by
  obtain ⟨a, b', c, e1, job, rfl, hb, hrun, hjob, hr⟩ := h
  refine ⟨a, b', c ++ b, e1, job, by simp, hb, hrun, ?_, hr⟩
  rw [List.filterMap_append]
  exact List.getElem?_append_left (List.getElem?_eq_some_iff.mp hjob).1 ▸ hjob

theorem Completed.starts {s0 : σ} {r : ρ} (h : Completed close s0 moves i r) : 0 < moves.countP (Move.starts i) := by
  obtain ⟨a, b, c, e1, job, rfl, -⟩ := h
  exact List.countP_pos_iff.mpr ⟨.receive i, by simp, Move.starts_iff.mpr rfl⟩

/-- What the moves so far say of an executor. -/
structure Recorded (close : σ → Option σ) (s0 : σ) (moves : List (Move σ ρ)) (e : Executor σ ρ) : Prop where
  jobs : e.callers.toList.map (·.job) = moves.filterMap Move.job?
  once : ∀ i, moves.countP (Move.starts i) ≤ 1
  /-- Only callers have jobs that start. -/
  known : ∀ i, 0 < moves.countP (Move.starts i) → i < e.callers.size
  unstarted : ∀ i c, e.callers[i]? = some c → c.state = .offering ∨ c.state = .returned .closed →
    moves.countP (Move.starts i) = 0
  running : ∀ i, e.activity = .running i → ∃ a b, moves = a ++ .receive i :: b ∧ ∀ m ∈ b, m.works = false
  finished : ∀ i c r, e.callers[i]? = some c → c.result = some r → Completed close s0 moves i r
  returned : ∀ i c r, e.callers[i]? = some c → c.state = .returned (.result r) → Completed close s0 moves i r
  stopped : e.activity = .stopped → ∃ s, close s = some e.state

theorem recorded_start (close : σ → Option σ) (s0 : σ) : Recorded close s0 [] { state := s0 : Executor σ ρ } where
  jobs := rfl
  once _ := Nat.zero_le 1
  known _ h := absurd h (Nat.lt_irrefl 0)
  unstarted _ _ h := by simp at h
  running _ h := by simp at h
  finished _ _ _ h := by simp at h
  returned _ _ _ h := by simp at h
  stopped h := by simp at h

namespace Recorded

variable {s0 : σ}

theorem jobs_step (hr : Recorded close s0 moves e) (h : Step close e m e') :
    e'.callers.toList.map (·.job) = (moves ++ [m]).filterMap Move.job? := by
  rw [h.jobs, hr.jobs, List.filterMap_append]
  cases hm : m.job? <;> simp [hm]

theorem once_step (hr : Recorded close s0 moves e) (h : Step close e m e') (i : Nat) :
    (moves ++ [m]).countP (Move.starts i) ≤ 1 := by
  rw [List.countP_append, List.countP_singleton]
  split
  case isTrue hi =>
    obtain rfl := Move.starts_iff.mp hi
    cases h with
    | receive _ hk hoffering => exact Nat.le_of_eq (congrArg (· + 1) (hr.unstarted i _ hk (.inl hoffering)))
  case isFalse => exact hr.once i

theorem known_step (hr : Recorded close s0 moves e) (h : Step close e m e') (i : Nat)
    (hi : 0 < (moves ++ [m]).countP (Move.starts i)) : i < e'.callers.size := by
  have hold : i < e.callers.size := by
    rw [List.countP_append, List.countP_singleton] at hi
    split at hi
    case isTrue hm =>
      obtain rfl := Move.starts_iff.mp hm
      cases h with
      | receive _ hk _ => exact (Array.getElem?_eq_some_iff.mp hk).1
    case isFalse => exact hr.known i hi
  obtain ⟨c', hc', -⟩ := h.forth (Array.getElem?_eq_getElem hold)
  exact (Array.getElem?_eq_some_iff.mp hc').1

theorem unstarted_step (hold : moves.countP (Move.starts i) = 0) (hm : m.starts i ≠ true) :
    (moves ++ [m]).countP (Move.starts i) = 0 := by
  rw [List.countP_append, List.countP_singleton, if_neg hm, hold]

theorem unstarted_caller (hr : Recorded close s0 moves e) (h : Step close e m e') (i : Nat)
    (c' : Caller σ ρ) (hc' : e'.callers[i]? = some c') (hstate : c'.state = .offering ∨ c'.state = .returned .closed) :
    (moves ++ [m]).countP (Move.starts i) = 0 := by
  rcases h.caller hc' with ⟨c, hc, halters⟩ | ⟨rfl, hm, -⟩
  · refine unstarted_step (hr.unstarted i c hc ?_) fun hi => ?_
    · rcases halters.state with h | ⟨h, -⟩ | ⟨r, -, -, h⟩ | h | ⟨-, h, -⟩
      · rwa [h] at hstate
      · exact .inl h
      · simp [h] at hstate
      · simp [h] at hstate
      · exact .inl h
    · simp [(halters.starts hi).2] at hstate
  · refine unstarted_step ?_ (by simp [hm])
    by_contra hpos
    exact Nat.lt_irrefl _ (hr.known _ (Nat.pos_of_ne_zero hpos))

theorem running_step (hr : Recorded close s0 moves e) (h : Step close e m e') (i : Nat)
    (hi : e'.activity = .running i) :
    ∃ a b, moves ++ [m] = a ++ .receive i :: b ∧ ∀ m ∈ b, m.works = false := by
  rcases h.activity with
    ⟨hworks, h, -⟩ | ⟨j, c, rfl, -, h, -⟩ | ⟨j, -, -, h⟩ | ⟨-, -, h⟩ | ⟨-, -, h, -⟩
  · obtain ⟨a, b, rfl, hb⟩ := hr.running i (h.symm.trans hi)
    refine ⟨a, b ++ [m], by simp, fun m' hm' => ?_⟩
    rcases List.mem_append.mp hm' with hm' | hm'
    · exact hb m' hm'
    · exact List.mem_singleton.mp hm' ▸ hworks
  · obtain rfl := Activity.running.inj (h.symm.trans hi)
    exact ⟨moves, [], rfl, by simp⟩
  · cases h.symm.trans hi
  · cases h.symm.trans hi
  · cases h.symm.trans hi

theorem finished_step (hr : Recorded close s0 moves e)
    (hrun : run? close { state := s0 } moves = some e) (h : Step close e m e') (i : Nat)
    (c' : Caller σ ρ) (r : ρ) (hc' : e'.callers[i]? = some c') (hresult : c'.result = some r) :
    Completed close s0 (moves ++ [m]) i r := by
  rcases h.caller hc' with ⟨c, hc, halters⟩ | ⟨-, -, -, h⟩
  · rcases halters.result with h | ⟨rfl, hrunning, h⟩
    · exact (hr.finished i c r hc (h.symm.trans hresult)).append [m]
    · -- The job has just ended: it is the one that was received last.
      obtain ⟨a, b, rfl, hb⟩ := hr.running i hrunning
      have hjob : ((a ++ .receive i :: b).filterMap Move.job?)[i]? = some c.job := by
        rw [← hr.jobs, List.getElem?_map, Array.getElem?_toList, hc]
        rfl
      refine ⟨a, b, [], e, c.job, by simp, hb, hrun, ?_, Option.mem_unique h hresult⟩
      rw [List.filterMap_append, List.getElem?_append_left (List.getElem?_eq_some_iff.mp hjob).1, hjob]
  · cases h.symm.trans hresult

theorem returned_step (hr : Recorded close s0 moves e) (h : Step close e m e') (i : Nat)
    (c' : Caller σ ρ) (r : ρ) (hc' : e'.callers[i]? = some c')
    (hstate : c'.state = .returned (.result r)) : Completed close s0 (moves ++ [m]) i r := by
  rcases h.caller hc' with ⟨c, hc, halters⟩ | ⟨-, -, h, -⟩
  · rcases halters.state with h | ⟨-, h⟩ | ⟨r', -, hresult, h⟩ | h | ⟨-, -, h⟩
    · exact (hr.returned i c r hc (h.symm.trans hstate)).append [m]
    · cases h.symm.trans hstate
    · have hrr : r' = r := by simpa using h.symm.trans hstate
      exact (hr.finished i c r hc (hrr ▸ hresult)).append [m]
    · cases h.symm.trans hstate
    · cases h.symm.trans hstate
  · cases h.symm.trans hstate

theorem stopped_step (hr : Recorded close s0 moves e) (h : Step close e m e')
    (hstopped : e'.activity = .stopped) : ∃ s, close s = some e'.state := by
  rcases h.activity with
    ⟨-, h, hstate⟩ | ⟨j, c, -, -, h, -⟩ | ⟨j, -, -, h⟩ | ⟨-, -, h⟩ | ⟨-, -, -, hclose⟩
  · exact hstate ▸ hr.stopped (h.symm.trans hstopped)
  · cases h.symm.trans hstopped
  · cases h.symm.trans hstopped
  · cases h.symm.trans hstopped
  · exact ⟨e.state, hclose⟩

theorem step (hr : Recorded close s0 moves e) (hrun : run? close { state := s0 } moves = some e)
    (h : Step close e m e') : Recorded close s0 (moves ++ [m]) e' where
  jobs := hr.jobs_step h
  once := hr.once_step h
  known := hr.known_step h
  unstarted := hr.unstarted_caller h
  running := hr.running_step h
  finished := hr.finished_step hrun h
  returned := hr.returned_step h
  stopped := hr.stopped_step h

end Recorded

theorem recorded_run {s0 : σ} (hrun : run? close { state := s0 } moves = some e) : Recorded close s0 moves e := by
  refine run_induction (recorded_start close s0) ?_ hrun
  intro a m e1 e2 ha hrecorded hm
  exact hrecorded.step ha hm

theorem return?_eq_some {how : Return ρ} (h : e.return? i = some how) :
    ∃ c, e.callers[i]? = some c ∧ c.state = .returned how := by
  unfold return? at h
  split at h
  · rename_i hc
    exact ⟨_, hc, congrArg _ (Option.some.inj h)⟩
  · simp at h

end Executor

/-! ## Executors of heaps -/

theorem closed_of_closeHeap {host : Host} {h : HeapId} {w w' : World}
    (hclose : closeHeap host h w = some w') : ∃ s, w'.heaps[h]? = some s ∧ s.closed = true := by
  have hexec : (Heap.close host h).exec w = (.ok (), w') := by
    unfold closeHeap at hclose
    split at hclose
    · rename_i hrun
      cases hclose
      exact hrun
    · simp at hclose
  unfold Heap.close at hexec
  obtain ⟨s, hs, hrest⟩ := (M.reads_heap h).bind_eq_ok hexec
  obtain ⟨hs, -⟩ := M.exec_heap_eq_ok.mp hs
  split at hrest
  case isTrue hclosed =>
    cases hrest
    exact ⟨s, hs, hclosed⟩
  case isFalse =>
    obtain ⟨-, w1, -, hend⟩ := M.bind_ok_iff.mp hrest
    obtain ⟨k, w2, -, hshut⟩ := M.bind_ok_iff.mp hend
    cases hs2 : w2.heaps[h]? with
    | none =>
      -- Freeing the objects would not find the heap.
      obtain ⟨⟨⟩, w3, hmodify, hlater⟩ := M.bind_ok_iff.mp hshut
      obtain ⟨n, w4, hfree, -⟩ := M.bind_ok_iff.mp hlater
      obtain ⟨s3, hs3, -⟩ := (M.reads_heap h).bind_eq_ok hfree
      rw [← M.after_eq hmodify, M.after_modifyHeap_none hs2] at hs3
      cases hs2.symm.trans (M.exec_heap_eq_ok.mp hs3).1
    | some s2 =>
      obtain ⟨s3, log, hshut', hclosed, -⟩ := Regime.exec_shut hs2 k
      cases hshut.symm.trans hshut'
      exact ⟨s3, World.get_setHeap hs2 s3, hclosed⟩

/-- **Executors are safe.** In every run of an executor of a heap, whatever callers, cancellations and
closers come in between:

* the job of a caller starts at most once, no job starts while another one runs, and none starts when the
  executor has quit, so none when it has closed the heap;
* a caller that returns with a result returns with that of its own job, which started once and ran to its
  end;
* a caller that returns because the executor is closed, or because it was cancelled before its job was
  received, has a job that never starts, neither before nor later;
* when a closer returns, the heap is closed and no job runs, and so it stays. -/
theorem executor_safe {ρ : Type} (host : Host) (h : HeapId) (w : World) (moves : List (Move World ρ))
    (e : Executor World ρ) (hrun : Executor.run? (closeHeap host h) { state := w } moves = some e) :
    (∀ i, moves.countP (Move.starts i) ≤ 1) ∧
    (∀ a b c i j, moves = a ++ .receive i :: (b ++ .receive j :: c) → .finish ∈ b) ∧
    (∀ a b m, moves = a ++ m :: b → m = .quit ∨ m = .shut → ∀ j, .receive j ∉ b) ∧
    (∀ i r, e.return? i = some (.result r) →
      moves.countP (Move.starts i) = 1 ∧ Executor.Completed (closeHeap host h) w moves i r) ∧
    (∀ a b e1 i, moves = a ++ b → Executor.run? (closeHeap host h) { state := w } a = some e1 →
      e1.return? i = some .closed ∨ e1.return? i = some .cancelled ∧ a.countP (Move.starts i) = 0 →
      moves.countP (Move.starts i) = 0) ∧
    (∀ a b j, moves = a ++ .closed j :: b →
      ∃ e1, Executor.run? (closeHeap host h) { state := w } a = some e1 ∧ e1.activity = .stopped ∧
        (∃ s, e1.state.heaps[h]? = some s ∧ s.closed = true) ∧
        e.activity = .stopped ∧ e.state = e1.state) := by
  have hrecorded := Executor.recorded_run hrun
  refine ⟨hrecorded.once, ?_, ?_, ?_, ?_, ?_⟩
  · -- While a job runs, the executor is not free to receive another one.
    rintro a b c i j rfl
    obtain ⟨e1, -, hrest⟩ := Executor.run?_append_eq_some.mp hrun
    obtain ⟨e2, hi, hrest⟩ := Executor.run?_cons_eq_some.mp hrest
    obtain ⟨e3, hb, hrest⟩ := Executor.run?_append_eq_some.mp hrest
    obtain ⟨e4, hj, -⟩ := Executor.run?_cons_eq_some.mp hrest
    have hrunning : e2.activity = .running i := by
      cases Executor.step_of_step? hi with
      | receive => rfl
    by_contra hfinish
    have hstill := Executor.run_running hrunning hb hfinish
    cases Executor.step_of_step? hj with
    | receive hfree => exact absurd (hstill.symm.trans hfree) (by simp)
  · rintro a b m rfl hm
    obtain ⟨e1, -, hrest⟩ := Executor.run?_append_eq_some.mp hrun
    obtain ⟨e2, hm', hb⟩ := Executor.run?_cons_eq_some.mp hrest
    refine Executor.run_quit ?_ hb
    rcases hm with rfl | rfl
    · cases Executor.step_of_step? hm' with
      | quit => exact .inl rfl
    · cases Executor.step_of_step? hm' with
      | shut => exact .inr rfl
  · intro i r hreturn
    obtain ⟨c, hc, hstate⟩ := Executor.return?_eq_some hreturn
    have hcompleted := hrecorded.returned i c r hc hstate
    exact ⟨Nat.le_antisymm (hrecorded.once i) hcompleted.starts, hcompleted⟩
  · -- The caller is no longer offering its job when it has returned.
    rintro a b e1 i rfl ha hreturn
    obtain ⟨e2, ha', hb⟩ := Executor.run?_append_eq_some.mp hrun
    obtain rfl := Option.some.inj (ha.symm.trans ha')
    have hbefore : a.countP (Move.starts i) = 0 := by
      rcases hreturn with hclosed | ⟨-, hnot⟩
      · obtain ⟨c, hc, hstate⟩ := Executor.return?_eq_some hclosed
        exact (Executor.recorded_run ha).unstarted i c hc (.inr hstate)
      · exact hnot
    have hlater : b.countP (Move.starts i) = 0 := by
      rcases hreturn with hclosed | ⟨hcancelled, -⟩
      · obtain ⟨c, hc, hstate⟩ := Executor.return?_eq_some hclosed
        exact Executor.run_returned hc (by simp [hstate]) hb
      · obtain ⟨c, hc, hstate⟩ := Executor.return?_eq_some hcancelled
        exact Executor.run_returned hc (by simp [hstate]) hb
    rw [List.countP_append, hbefore, hlater]
  · rintro a b j rfl
    obtain ⟨e1, ha, hrest⟩ := Executor.run?_append_eq_some.mp hrun
    obtain ⟨e2, hj, hb⟩ := Executor.run?_cons_eq_some.mp hrest
    have hstopped : e1.activity = .stopped := by
      cases Executor.step_of_step? hj with
      | closed hstopped => exact hstopped
    obtain ⟨s, hclose⟩ := (Executor.recorded_run ha).stopped hstopped
    have hlast := Executor.run_stopped hstopped (hrest : e1.run? _ (.closed j :: b) = some e)
    exact ⟨e1, ha, hstopped, closed_of_closeHeap hclose, hlast⟩

def oneHeap : World := ((Program.ofList [.heap (.newHeap { gcThreshold := 0 })]).run (hostAt 1) true).after {}

/-- The first of three callers is served, the second is cancelled while it waits for its turn, and the
third comes too late for that turn and is refused after two closers came. -/
def race : List (Move World Nat) :=
  [.submit fun w => (w.heaps.size, w), .submit fun w => (7, w), .receive 0, .cancel 1, .giveUp 1, .askClose,
    .submit fun w => (8, w), .finish, .askClose, .quit, .shut, .closed 1, .refuse 2, .deliver 0, .closed 0]

def raced : Option (Executor World Nat) := Executor.run? (closeHeap (hostAt 1) 0) { state := oneHeap } race

theorem executor_safe_race : ∃ e, raced = some e ∧ e.return? 0 = some (.result 1) ∧
    race.countP (Move.starts 0) = 1 ∧ Executor.Completed (closeHeap (hostAt 1) 0) oneHeap race 0 1 ∧
    e.return? 1 = some .cancelled ∧ race.countP (Move.starts 1) = 0 ∧
    e.return? 2 = some .closed ∧ race.countP (Move.starts 2) = 0 ∧ e.activity = .stopped := by
  have hreturns : raced.map (fun e => (e.return? 0, e.return? 1, e.return? 2)) =
      some (some (.result 1), some .cancelled, some .closed) := by decide +kernel
  obtain ⟨e, hrun, he⟩ := Option.map_eq_some_iff.mp hreturns
  simp only [Prod.mk.injEq] at he
  obtain ⟨h0, h1, h2⟩ := he
  obtain ⟨-, -, -, hresult, hnever, hclosed⟩ := executor_safe (hostAt 1) 0 oneHeap race e hrun
  obtain ⟨hstarts, hcompleted⟩ := hresult 0 1 h0
  have h1' := hnever race [] e 1 (List.append_nil _).symm hrun (.inr ⟨h1, by decide⟩)
  have h2' := hnever race [] e 2 (List.append_nil _).symm hrun (.inl h2)
  obtain ⟨-, -, -, -, hstopped, -⟩ := hclosed (race.take 14) [] 0 rfl
  exact ⟨e, hrun, h0, hstarts, hcompleted, h1, h1', h2, h2', hstopped⟩

end Tether
