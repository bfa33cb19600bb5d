import Tether.Proofs.HeapSafety
import Tether.Proofs.Ledger

/-!
# What bridges write

Making, severing and finalizing wrappers changes the books of bridges and the hidden properties of
objects. All of these changes are listed here, each taken as a whole, so that a regime has to be looked
at once for each of them and not along the operations.
-/

namespace Tether

open M Bridge Ownership World Heap

open Bridge (bridgeKey objectKey finalizerKey)

variable {b : BridgeId} {r : RecordId} {w w' : World} {h : HeapId} {s s' : Heap} {R : Regime} {n : Nat}
  {o : NativeId} {i : ShareId} {f : Heap → Except Stop Heap} {key : String} {c : ClassId}

/-! ## Hidden properties -/

namespace World

variable (w)

def Based (b : BridgeId) (h : HeapId) : Prop := ∃ br, w.bridges[b]? = some br ∧ br.heapId = h

def Seats (h : HeapId) (r : RecordId) : Prop := ∃ x, w.records[r]? = some x ∧ w.Based x.bridge h

def Keyed (k : String) : Prop := ∃ (c : ClassId) (d : ClassDecl), w.classes[c]? = some d ∧ d.key = k

inductive Rewrites (w : World) (h : HeapId) (o : Object) : Object → Prop
  | hide {k : String} (v : Value) : k = finalizerKey ∨ w.Keyed k →
      Rewrites w h o { o with hidden := o.hidden.put k v }
  | mark {r : RecordId} : w.Seats h r →
      Rewrites w h o { o with hidden := o.hidden.put objectKey (.pointer (.record (some r))) }
  | unhide {k : String} : k = objectKey ∨ w.Keyed k → Rewrites w h o { o with hidden := o.hidden.erase k }
  | equip (finalizer : Option HeapPtr) : Rewrites w h o { o with finalizer }

def Shows (h : HeapId) (r : RecordId) : Prop :=
  ∃ s p o, w.heaps[h]? = some s ∧ s.object? p = some o ∧ o.hidden.get? objectKey = some (.pointer (.record (some r)))

variable {w}

end World

namespace Heap

variable {i : Int} {k : String}

/-- What bridges of a heap do to it: they write to one object at most. -/
structure Writes (w : World) (h : HeapId) (s s' : Heap) : Prop where
  amends : s.Amends World.lawless s'
  edit : s' = s ∨ ∃ p f stack, s' = { s with table := s.table.modify p f, stack } ∧ ∀ o, w.Rewrites h o (f o)

theorem writes_putHidden (he : s.putHidden i k = .ok s')
    (hk : ∀ v, s.stack.back? = some v → (k = finalizerKey ∨ w.Keyed k) ∨
      k = objectKey ∧ ∃ r, v = .pointer (.record (some r)) ∧ w.Seats h r) : s.Writes w h s' := by
  refine ⟨amends_putHidden (fun hg => absurd hg not_guarded_lawless) he, .inr ?_⟩
  obtain ⟨p, -, he⟩ := bind_eq_ok.mp he
  obtain ⟨v, hv, he⟩ := bind_eq_ok.mp he
  obtain ⟨-, -, he⟩ := bind_eq_ok.mp he
  refine ⟨p, _, _, (popN_eq he).1, fun o => ?_⟩
  rcases hk v (back?_of_operand hv) with hk | ⟨rfl, r, rfl, hr⟩
  · exact .hide v hk
  · exact .mark hr

theorem writes_delHidden {b : Bool} (he : s.delHidden i k = .ok (b, s')) (hk : k = objectKey ∨ w.Keyed k) :
    s.Writes w h s' := by
  refine ⟨amends_delHidden (fun hg => absurd hg not_guarded_lawless) he, ?_⟩
  unfold delHidden at he
  split at he
  · obtain ⟨o, -, he⟩ := bind_eq_ok.mp he
    split at he
    · cases he
      exact .inr ⟨_, _, _, rfl, fun _ => .unhide hk⟩
    · exact .inl (Prod.mk.inj (Except.ok.inj he)).2.symm
  · exact .inl (Prod.mk.inj (Except.ok.inj he)).2.symm

theorem writes_setFinalizer (he : s.setFinalizer i = .ok s') : s.Writes w h s' := by
  refine ⟨amends_setFinalizer (fun ho => absurd ho (by simp [lawless])) he, .inr ?_⟩
  obtain ⟨p, v, -, -, ⟨-, he⟩ | ⟨q, f, -, -, -, he⟩⟩ := setFinalizer_cases he
  · exact ⟨p, _, _, (popN_eq he).1, fun _ => .equip none⟩
  · exact ⟨p, _, _, (popN_eq he).1, fun _ => .equip (some q)⟩

theorem value?_push_top {u v : Value} (hu : (s.push v).value? (-1) = some u) : u = v := by
  obtain ⟨a, ha, hu⟩ := Option.bind_eq_some_iff.mp hu
  simp only [position?, if_pos (show (-1 : Int) < 0 by decide), Option.ite_none_left_eq_some] at ha
  have hsize : (s.push v).stack.size = s.stack.size + 1 := Array.size_push _
  have hlast : a = s.stack.size := by
    rw [← Option.some.inj ha.2, hsize]
    omega
  rw [hlast] at hu
  exact Option.some.inj (hu.symm.trans Array.getElem?_push_size)

theorem carried_of_getHidden (he : s.getHidden i objectKey = .ok (true, s'))
    (hp : s'.getPointer (-1) = .record (some r)) : ∃ p o, s'.object? p = some o ∧
      o.hidden.get? objectKey = some (.pointer (.record (some r))) := by
  obtain ⟨p, -, he⟩ := bind_eq_ok.mp he
  obtain ⟨o, ho, he⟩ := bind_eq_ok.mp he
  cases hk : o.hidden.get? objectKey with
  | none =>
    simp only [hk] at he
    simpa using (Prod.mk.inj (Except.ok.inj he)).1
  | some v =>
    simp only [hk] at he
    cases he
    refine ⟨p, o, object?_of_deref ho, ?_⟩
    unfold getPointer at hp
    split at hp
    · rename_i q hq
      rw [hk, ← value?_push_top hq, hp]
    · simp at hp

end Heap

/-! ## The books -/

def Bridge.countSevered (br : Bridge) : Bridge :=
  { br with stats := { br.stats with live := br.stats.live - 1, severed := br.stats.severed + 1 } }

def Bridge.countFinalized (br : Bridge) : Bridge :=
  { br with stats := { br.stats with live := br.stats.live - 1, finalized := br.stats.finalized + 1 } }

variable (m : NativeObject)

/-- A native object whose token named a record names it no more. -/
def NativeObject.leave (r : RecordId) : NativeObject :=
  if m.token.record = some r then { m with token := { m.token with record := none } } else m

theorem NativeObject.sort_leave (r : RecordId) : (m.leave r).sort = m.sort := by
  unfold leave
  split <;> rfl

namespace World

variable (w)

/-- The world in which the token of an object names no record, and the record that it named is severed. -/
def severing (o : NativeId) (r : RecordId) (b : BridgeId) (log : Array LogEntry) : World :=
  { w.detach o r fun x => { x with severed := true, share := none } with
    bridges := w.bridges.modify b countSevered, log }

/-- The world after the live record `r` of the object `a` was unlinked, and before its share is given
up. -/
def unlinking (b : BridgeId) (r : RecordId) (a : NativeId) (log : Array LogEntry) : World :=
  { w with
    natives := w.natives.modify a (·.leave r)
    records := w.records.modify r fun x => { x with share := none, ptr := .null }
    bridges := w.bridges.modify b countFinalized
    log }

def attaching (h : HeapId) (s : Heap) (strict : Bool) : World :=
  ({ w with bridges := w.bridges.push { heapId := h, strict, logs := w.logging } } : World).setHeap h s

variable {w}

end World

theorem M.share_of_exec_take (he : (take o).exec w = (.ok i, w')) :
    ∃ sh, w'.shares[i]? = some sh ∧ sh.object = o := by
  obtain ⟨-, -, c, -, -, -, -, rfl, hshares⟩ := token_of_take he
  exact ⟨{ object := o, control := c }, by rw [hshares]; exact Array.getElem?_push_size, rfl⟩

namespace Regime

/-- The finalizer of wrappers has found a record on a heap; only the heap has changed since. -/
def Finds (R : Regime) (h : HeapId) (r : RecordId) (w : World) : Prop :=
  ∃ v s, R.inv v ∧ v.Shows h r ∧ w = v.setHeap h s

/-- One entry into the books. -/
inductive Posts (R : Regime) (w : World) : World → Prop
  | control {o : NativeId} : R.Posts w (w.withControl o)
  | destroy (c : ControlId) : R.Posts w (w.markDestroyed c)
  | giveUp {i : ShareId} {sh : Share} : R.loose i w → w.shares[i]? = some sh → sh.released = false →
      R.Posts w (w.giveUp i sh.control)
  | untie (o : NativeId) : R.Posts w (w.setToken o fun t => { t with record := none })
  | sever {o : NativeId} {n : NativeObject} {r : RecordId} {x : Record} {log : Array LogEntry} :
      w.natives[o]? = some n → n.token.record = some r → w.records[r]? = some x → x.severed = false →
      R.Posts w (w.severing o r x.bridge log)
  /-- A share is taken, and a record is made with it. -/
  | bind {o : NativeId} {i : ShareId} {w1 : World} {b : BridgeId} {h : HeapId} {c : ClassId}
      {ptr : HeapPtr} : (Ownership.take o).exec w = (.ok i, w1) → w1.Based b h → R.fits c o w1 →
      R.Posts w (w1.bind o { bridge := b, cls := c, share := some i, ptr })
  | unlink {b : BridgeId} {h : HeapId} {r : RecordId} {x : Record} {i : ShareId} {sh : Share}
      {log : Array LogEntry} : R.Finds h r w → R.tends h b w → w.Live r x i → w.shares[i]? = some sh →
      sh.released = false → R.Posts w ((w.unlinking b r sh.object log).giveUp i sh.control)
  /-- A record is unlinked whose share was given up before, or the bridge is not there. -/
  | unlinkSpent {b : BridgeId} {h : HeapId} {r : RecordId} {x : Record} {i : ShareId} {sh : Share}
      {log : Array LogEntry} : R.tends h b w → w.Live r x i → w.shares[i]? = some sh →
      sh.released = true ∨ w.bridges[b]? = none → R.Posts w (w.unlinking b r sh.object log)
  | discard (r : RecordId) : R.Posts w { w with records := w.records.modify r fun x => { x with ptr := .null } }
  | force (forced : Bool) : R.Posts w { w with forced }
  /-- A bridge is made for a heap whose stash has none, and is written to the stash if that can be
  done. -/
  | attach {v : World} {h : HeapId} {s s1 s2 s' : Heap} {strict : Bool} : R.inv v →
      v.heaps[h]? = some s → w.heaps[h]? = some s1 → s.closed = false → s1 = s.push (.object s.stash) →
      s1.hasHidden (-1) bridgeKey = .ok false → s2 = s1.push (.pointer (.bridge w.bridges.size)) →
      s2.putHidden (-2) bridgeKey = .ok s' ∨ (∃ e, s2.putHidden (-2) bridgeKey = .error e) ∧ s' = s2 →
      R.Posts w (w.attaching h s' strict)

theorem Posts.mono {R R' : Regime} (hp : R.Posts w w') (hinv : ∀ {v}, R.inv v → R'.inv v)
    (hloose : ∀ {i}, R.loose i w → R'.loose i w) (htends : ∀ {h b}, R.tends h b w → R'.tends h b w)
    (hfits : ∀ {c o v}, R.fits c o v → R'.fits c o v) : R'.Posts w w' := by
  cases hp with
  | control => exact .control
  | destroy c => exact .destroy c
  | giveUp hi hsh hr => exact .giveUp (hloose hi) hsh hr
  | untie o => exact .untie o
  | sever hn hr hx hs => exact .sever hn hr hx hs
  | bind he hb hf => exact .bind he hb (hfits hf)
  | unlink hfound ht hlive hsh hr =>
    obtain ⟨v, s, hv, hshows, he⟩ := hfound
    exact .unlink ⟨v, s, hinv hv, hshows, he⟩ (htends ht) hlive hsh hr
  | unlinkSpent ht hlive hsh hspent => exact .unlinkSpent (htends ht) hlive hsh hspent
  | discard r => exact .discard r
  | force f => exact .force f
  | attach hv hs0 hs hopen hs1 hhas hs2 hput => exact .attach (hinv hv) hs0 hs hopen hs1 hhas hs2 hput

/-- A regime that keeps through all that bridges write. -/
class IsPosting (R : Regime) : Prop extends IsHeapwise R where
  usable (b : BridgeId) (w : World) : R.usable b w := by intros; trivial
  tends {w : World} {h : HeapId} {b : BridgeId} : w.Based b h → R.tends h b w
  root {w : World} {h : HeapId} {s : Heap} {global stash : HeapPtr} : R.inv w → w.heaps[h]? = some s →
    (s.Working → s.Holds global ∧ s.Holds stash) → stash = s.stash ∨ s.stash = .null →
    R.Good w (w.setHeap h { s with global, stash })
  newHeap {w : World} {limits : Limits} {storage : Storage} {ownsStorage logs : Bool} : R.inv w → 0 < limits.depth →
    R.Good w { w with heaps := w.heaps.push { limits, storage, ownsStorage, logs } }
  write {w : World} {h : HeapId} {s s' : Heap} : R.inv w → w.heaps[h]? = some s → s.Writes w h s' →
    R.Good w (w.setHeap h s')
  post {w w' : World} : R.inv w → R.Posts w w' → R.Good w w'

variable {F : R.Fact}

theorem IsPlain.post [IsPlain R] (hw : R.inv w) (hp : R.Posts w w') : R.Good w w' := by
  have edited : ∀ {natives : Array NativeObject} {r : RecordId} {f : Record → Record} {b : BridgeId}
      {g : Bridge → Bridge} {log : Array LogEntry}, Retains NativeObject.sort w.natives natives →
      (∀ x, (f x).cls = x.cls ∧ ((f x).share = x.share ∨ (f x).share = none)) →
      (∀ x, (g x).heapId = x.heapId ∧ (g x).registry = x.registry) → R.Good w { w with
        natives, log, records := w.records.modify r f, bridges := w.bridges.modify b g } := by
    intro natives r f b g log hn hf hg
    have htoken : R.Good w { w with natives, log } := IsPlain.books hw (w.books_ledger hn (.refl _ _))
    have hrecord := htoken.trans (IsPlain.books htoken.1 (books_editRecord _ (r := r) hf))
    exact hrecord.trans (IsPlain.books hrecord.1 (books_editBridge _ (b := b) hg))
  have unlinked : ∀ b r a log, R.Good w (w.unlinking b r a log) := fun b r a log =>
    edited (retains_modify _ _ fun m => m.sort_leave r) (fun _ => ⟨rfl, .inr rfl⟩) fun _ => ⟨rfl, rfl⟩
  cases hp with
  | control => exact IsPlain.books hw (w.books_ledger (retains_modify _ _ fun _ => rfl) (.refl _ _))
  | destroy => exact IsPlain.books hw (w.books_ledger (.refl _ _) (.refl _ _))
  | giveUp => exact IsPlain.books hw (w.books_ledger (.refl _ _) (retains_modify _ _ fun _ => rfl))
  | untie => exact IsPlain.books hw (w.books_ledger (retains_modify _ _ fun _ => rfl) (.refl _ _))
  | sever =>
    exact edited (f := fun x => { x with severed := true, share := none })
      (retains_modify _ _ fun _ => rfl) (fun _ => ⟨rfl, .inr rfl⟩) fun _ => ⟨rfl, rfl⟩
  | @bind o i w1 b h c ptr htake hb hfits =>
    have htaken : R.Good w w1 := by
      rw [← after_eq htake]
      exact (good_take o hw).1
    obtain ⟨sh, hsh, rfl⟩ := share_of_exec_take htake
    let x : Record := { bridge := b, cls := c, share := some i, ptr }
    have hrecord := htaken.trans (IsPlain.books htaken.1 (w1.books_newRecord (x := x) fun j hj =>
      ⟨sh, Option.some.inj hj ▸ hsh, IsPlain.fits hfits⟩))
    have htoken : R.Good w { w1 with
        records := w1.records.push x
        natives := w1.natives.modify sh.object fun n =>
          { n with token := { n.token with record := some w1.records.size } } } :=
      hrecord.trans (IsPlain.books hrecord.1 (books_ledger _ (retains_modify _ _ fun _ => rfl) (.refl _ _)))
    exact htoken.trans (IsPlain.books htoken.1 (books_editBridge _ fun _ => ⟨rfl, rfl⟩))
  | @unlink b _ r x i sh log =>
    have hunlinked := unlinked b r sh.object log
    exact hunlinked.trans (IsPlain.books hunlinked.1 (books_ledger _ (.refl _ _) (retains_modify _ _ fun _ => rfl)))
  | unlinkSpent => exact unlinked _ _ _ _
  | discard => exact IsPlain.books hw (w.books_editRecord fun _ => ⟨rfl, .inl rfl⟩)
  | force => exact IsPlain.books hw (w.books_ledger (.refl _ _) (.refl _ _))
  | @attach v h s s1 s2 s' strict _ _ hs _ _ _ hs2 hput =>
    have hmade := IsPlain.books hw (w.books_newBridge { heapId := h, strict, logs := w.logging } rfl)
    have hs1 : ({ w with bridges := w.bridges.push { heapId := h, strict, logs := w.logging } } :
      World).heaps[h]? = some s1 := hs
    have hpushed : R.Good w (w.attaching h s2 strict) := by
      subst hs2
      exact hmade.trans (IsPlain.turn hmade.1 hs1 (.amend (amends_pushPlain rfl)))
    rcases hput with hput | ⟨-, rfl⟩
    · have hwritten := IsPlain.turn hpushed.1 (get_setHeap hs1 s2)
        (.amend (amends_putHidden (fun hg => absurd hg not_guarded_lawless) hput))
      unfold attaching at hwritten
      rw [setHeap_setHeap] at hwritten
      exact hpushed.trans hwritten
    · exact hpushed

instance [IsPlain R] : IsPosting R where
  usable := IsPlain.usable
  tends _ := IsPlain.tends _ _ _
  root hw hs hroots _ := IsPlain.turn hw hs (.root hroots)
  newHeap := IsPlain.newHeap
  write hw hs ha := IsPlain.turn hw hs (.amend ha.amends)
  post := IsPlain.post

/-! ## Steps of operations -/

end Regime

namespace M

theorem after_reportSevered (x : Record) (w : World) : ∃ log, (reportSevered x).after w =
      { w with bridges := w.bridges.modify x.bridge countSevered, log } := by
  let rest : M Unit := do
    log (← bridge x.bridge).logs .debug "record severed"
      [("class", .text (← classDecl x.cls).name), ("ptr", .text x.ptr.text)]
  have hrest : M.Fixes (fun w => ({ w with log := #[] } : World)) rest :=
    ((reads_bridge _).fixes _).bind fun _ => ((reads_classDecl _).fixes _).bind fun _ =>
      fixes_log (fun _ _ => rfl) _ _ _ _
  have h := hrest { w with bridges := w.bridges.modify x.bridge countSevered }
  exact ⟨_, congrArg (fun v => ({ v with log := (reportSevered x).after w |>.log } : World)) h⟩

/-- Severing the wrapper of an object does nothing, or the token of the object lets go of a record,
which is severed unless it was before. -/
theorem after_severWrapper (o : NativeId) (w : World) : (severWrapper o).after w = w ∨
    (severWrapper o).after w = w.setToken o (fun t => { t with record := none }) ∨
    ∃ n r x log, w.natives[o]? = some n ∧ n.token.record = some r ∧ w.records[r]? = some x ∧
      x.severed = false ∧ (severWrapper o).after w = w.severing o r x.bridge log := by
  unfold severWrapper
  cases hn : w.natives[o]? with
  | none => exact .inl (after_look_none hn)
  | some n =>
  rw [after_bind_ok (exec_native hn)]
  cases hr : n.token.record with
  | none => exact .inl rfl
  | some r =>
  right
  let w1 : World := w.setToken o fun t => { t with record := none }
  have htoken : (modifyNative o fun n => { n with token := { n.token with record := none } }).exec w =
      (.ok (), w1) := rfl
  simp only
  rw [after_bind_ok htoken]
  unfold sever
  cases hx : w.records[r]? with
  | none => exact .inl (after_look_none (w := w1) hx)
  | some x =>
    rw [after_bind_ok (w := w1) (exec_record_eq_ok.mpr ⟨hx, rfl⟩)]
    cases hs : x.severed with
    | true => exact .inl (by rw [if_pos rfl]; rfl)
    | false =>
      obtain ⟨log, hlog⟩ := after_reportSevered x (w.detach o r fun x => { x with severed := true, share := none })
      exact .inr ⟨n, r, x, log, rfl, hr, hx, hs, hlog⟩

theorem after_release {host : Host} {sh : Share} (hi : w.shares[i]? = some sh)
    (hr : sh.released = false) : (release host i).after w =
      (do if (← control sh.control).refs = 0 then destroy host sh.control : M Unit).after
        (w.giveUp i sh.control) := by
  unfold Ownership.release
  rw [after_bind_ok (exec_share_eq_ok.mpr ⟨hi, rfl⟩), if_neg (by simp [hr])]
  rfl

end M

namespace Bridge

open M

variable {host : Host} {x : Record} {br : Bridge}

theorem exec_reportFinalized (hbr : w.bridges[b]? = some br) (d : ClassDecl) :
    ∃ log, (reportFinalized b d).exec w = (.ok (), { w with bridges := w.bridges.modify b countFinalized, log }) := by
  let w1 := { w with bridges := w.bridges.modify b countFinalized }
  have hcount : (modifyBridge b countFinalized).exec w = (.ok (), w1) := rfl
  have hbr1 : w1.bridges[b]? = some br.countFinalized := modify_self hbr
  obtain ⟨log, hlog⟩ := exec_log br.countFinalized.logs .debug "wrapper finalized" [("class", .text d.name)] w1
  refine ⟨log, ?_⟩
  unfold reportFinalized
  refine (bind_ok hcount).trans ?_
  rw [bind_ok (exec_bridge_eq_ok.mpr ⟨hbr1, rfl⟩), hlog]

theorem exec_reportBroken (hbr : w.bridges[b]? = some br) (hlenient : br.strict = false) (f : Fault) :
    ∃ log, (reportBroken b f).exec w = (.ok (), { w with log }) := by
  obtain ⟨log, hlog⟩ := exec_log br.logs .error "identity assertion failed" [("error", .text f.message)] w
  refine ⟨log, ?_⟩
  unfold reportBroken
  rw [bind_ok (exec_bridge_eq_ok.mpr ⟨hbr, rfl⟩), hlenient]
  exact hlog

theorem natives_leave {a : NativeId} {m : NativeObject} (hm : w.natives[a]? = some m) (r : RecordId) :
    w.natives.modify a (·.leave r) = if m.token.record = some r then
      w.natives.modify a fun n => { n with token := { n.token with record := none } } else w.natives := by
  split
  case isTrue hr =>
    have hleave : m.leave r = { m with token := { m.token with record := none } } := if_pos hr
    rw [modify_eq_of_getElem? hm, hleave]
    exact (modify_eq_of_getElem? hm fun n => { n with token := { n.token with record := none } }).symm
  case isFalse hr => exact modify_eq_self hm (if_neg hr)

/-- The end of unlinking: the record is parted from its object, which is counted, and its share is given
up. -/
def part (host : Host) (b : BridgeId) (r : RecordId) (i : ShareId) (d : ClassDecl) : M Unit := do
  modifyRecord r fun x => { x with share := none, ptr := .null }
  reportFinalized b d
  release host i

theorem exec_part (host : Host) (r : RecordId) (a : NativeId) (i : ShareId) (d : ClassDecl)
    (hbr : w.bridges[b]? = some br) (log : Array LogEntry) : ∃ log',
      (part host b r i d).exec { w with natives := w.natives.modify a (·.leave r), log } =
        (release host i).exec (w.unlinking b r a log') := by
  obtain ⟨log', hreport⟩ := exec_reportFinalized (w := { w with
    natives := w.natives.modify a (·.leave r)
    records := w.records.modify r fun x => { x with share := none, ptr := .null }, log }) hbr d
  exact ⟨log', (bind_ok rfl).trans (bind_ok hreport)⟩

theorem after_part (host : Host) (b : BridgeId) (r : RecordId) (a : NativeId) (i : ShareId) (d : ClassDecl)
    (w : World) (log : Array LogEntry) : ∃ log', w.bridges[b]? = none ∧
      (part host b r i d).after { w with natives := w.natives.modify a (·.leave r), log } = w.unlinking b r a log' ∨
      (part host b r i d).after { w with natives := w.natives.modify a (·.leave r), log } =
        (release host i).after (w.unlinking b r a log') := by
  cases hbr : w.bridges[b]? with
  | some br =>
    obtain ⟨log', hpart⟩ := exec_part host r a i d hbr log
    exact ⟨log', .inr (congrArg Prod.snd hpart)⟩
  | none =>
    have hnone : (w.unlinking b r a log).bridges[b]? = none :=
      (Array.getElem?_modify ..).trans ((if_pos rfl).trans (congrArg _ hbr))
    exact ⟨log, .inl ⟨rfl, (after_bind_ok rfl).trans (after_bind_error
      ((bind_ok rfl).trans (bind_error (exec_look_none (f := fun w => w.bridges[b]?) hnone))))⟩⟩

/-- Unlinking a record that was not severed does nothing, or it parts the record from its object and
gives up its share. -/
theorem after_unlink (host : Host) (b : BridgeId) (hx : w.records[r]? = some x)
    (hsevered : x.severed = false) : (unlink host b r).after w = w ∨
      ∃ i sh log, w.Live r x i ∧ w.shares[i]? = some sh ∧
        (w.bridges[b]? = none ∧ (unlink host b r).after w = w.unlinking b r sh.object log ∨
          (unlink host b r).after w = (release host i).after (w.unlinking b r sh.object log)) := by
  unfold unlink
  rw [after_bind_ok (exec_record_eq_ok.mpr ⟨hx, rfl⟩)]
  cases hd : w.classes[x.cls]? with
  | none => exact .inl (after_look_none hd)
  | some d =>
  rw [after_bind_ok (exec_classDecl_eq_ok.mpr ⟨hd, rfl⟩)]
  cases hi : x.share with
  | none => exact .inl (after_bind_error (exec_need_none w))
  | some i =>
  rw [after_bind_ok (exec_need_some i w)]
  cases hsh : w.shares[i]? with
  | none => exact .inl (after_look_none hsh)
  | some sh =>
  rw [after_bind_ok (exec_share_eq_ok.mpr ⟨hsh, rfl⟩)]
  cases hm : w.natives[sh.object]? with
  | none => exact .inl (after_look_none hm)
  | some m =>
  rw [after_bind_ok (exec_native hm)]
  have hnatives := natives_leave hm r
  split at hnatives
  case isTrue hr =>
    obtain ⟨log, hlog⟩ := after_part host b r sh.object i d w w.log
    rw [hnatives] at hlog
    rw [if_pos hr]
    exact .inr ⟨i, sh, log, ⟨hx, hsevered, hi⟩, hsh, hlog⟩
  case isFalse hr =>
    rw [if_neg hr]
    cases hbr : w.bridges[b]? with
    | none =>
      have hbroken : ∀ f, (reportBroken b f).exec w = (.error (.crash .runtime), w) := fun f =>
        bind_error (exec_look_none (f := fun w => w.bridges[b]?) hbr)
      exact .inl (after_bind_error (hbroken _))
    | some br =>
      cases hstrict : br.strict with
      | true =>
        have hbroken : ∀ f, (reportBroken b f).exec w = (.error (.crash (.assertion f)), w) := by
          intro f
          unfold reportBroken
          rw [bind_ok (exec_bridge_eq_ok.mpr ⟨hbr, rfl⟩), if_pos hstrict]
          rfl
        exact .inl (after_bind_error (hbroken _))
      | false =>
        obtain ⟨log, hbroken⟩ := exec_reportBroken hbr hstrict
          (.identityCorruption .finalize d.name "token does not point at the finalized record")
        obtain ⟨log', hlog⟩ := after_part host b r sh.object i d w log
        rw [hnatives] at hlog
        rw [hbr] at hlog
        rw [after_bind_ok hbroken]
        exact .inr ⟨i, sh, log', ⟨hx, hsevered, hi⟩, hsh, hlog⟩

end Bridge

namespace Regime

variable {F : R.Fact}

def Stationed (b : BridgeId) (h : HeapId) : R.Fact :=
  ⟨fun w => w.Based b h, fun hr ⟨br, hbr, hid⟩ =>
    let ⟨br', hbr', he⟩ := (R.later hr).bridges b br hbr
    ⟨br', hbr', he.trans hid⟩⟩

def ClassKey (k : String) : R.Fact :=
  ⟨fun w => w.Keyed k, fun hr ⟨c, d, hd, hk⟩ =>
    let ⟨d', hd', he⟩ := (R.later hr).classes c d hd
    ⟨c, d', hd', (Prod.mk.inj he).1.trans hk⟩⟩

section Posting

variable [IsPosting R]

theorem good_writeOn {α : Type} {f : Heap → Except Stop (α × Heap)} (hw : R.inv w)
    (hf : ∀ s a s', w.heaps[h]? = some s → f s = .ok (a, s') → s.Writes w h s') :
    R.Good w ((M.onHeap h f).after w) :=
  .onHeap hw fun s a s' hs he => IsPosting.write hw hs (hf s a s' hs he)

theorem good_write (hw : R.inv w) (hf : ∀ s s', w.heaps[h]? = some s → f s = .ok s' → s.Writes w h s') :
    R.Good w ((changeHeap h f).after w) :=
  good_writeOn hw fun s _ s' hs he => hf s s' hs (map_unit_eq_ok.mp he)

theorem keeps_putKey {k : String} (i : Int) (hk : ∀ w, F.holds w → k = finalizerKey ∨ w.Keyed k) :
    Keeps F (changeHeap h (·.putHidden i k)) :=
  fun w hw hF => good_write hw fun _ _ _ he => writes_putHidden he fun _ _ => .inl (hk w hF)

section Served

variable (hserves : R.Serves n)
include hserves

theorem plain_newRoot {β : Type} (h : HeapId) (root : HeapPtr → Heap → Heap) {rest : HeapPtr → M β}
    (hroot : ∀ {w : World} {s : Heap} p, R.inv w → w.heaps[h]? = some s →
      (s.Working → s.Holds p) → R.Good w (w.setHeap h (root p s)))
    (hrest : ∀ p, Keeps F (rest p)) :
    Keeps F (do
      let p ← Heap.newObject (hostAt n) h {}
      M.modifyHeap h (root p)
      rest p) := by
  refine (keeps_newObject (plain_collects hserves) h (.of_body _) (by simp)).bind_of fun p w w' hw hF he hg => ?_
  obtain ⟨s, hs, hholds⟩ := holds_newObject hserves hw he
  refine Good.bind ?_ fun _ w' _ hg' => hrest _ w' hg'.1 (F.stable (hg.trans hg').2 hF)
  rw [after_eq (exec_modifyHeap hs _)]
  exact hroot p hg.1 hs hholds

theorem plain_makes (l : Limits) (storage : Storage) (owns : Bool) :
    Keeps F (Heap.make (hostAt n) l storage owns) := by
  refine (keeps_ofExcept _).bind_of fun _ w w0 hw hF he hg0 => ?_
  have hdepth : 0 < l.depth := depth_pos_of_checkLimits (exec_ofExcept_eq_ok.mp he).1
  have hF0 := F.stable hg0.2 hF
  rw [after_bind_ok (exec_get w0)]
  refine Good.bind (IsPosting.newHeap hg0.1 hdepth) fun _ w1 _ hg1 => ?_
  refine plain_newRoot hserves _ (fun p s => { s with global := p }) (fun p hw hs hp => ?_)
    (fun _ => plain_newRoot hserves _ (fun p s => s.setStash p) (fun {w s} p hw hs hp => ?_)
      fun _ => keeps_pure _) w1 hg1.1 (F.stable hg1.2 hF0)
  · exact IsPosting.root hw hs (fun hwork => ⟨hp hwork, hwork.stash⟩) (.inl rfl)
  · unfold setStash
    split
    case isTrue hnull => exact IsPosting.root hw hs (fun hwork => ⟨hwork.global, hp hwork⟩) (.inr hnull)
    case isFalse => exact IsPosting.root hw hs (fun hwork => ⟨hwork.global, hwork.stash⟩) (.inl rfl)

/-! ## Shares and wrappers -/

theorem plain_destroy (c : ControlId) : Keeps F (Ownership.destroy (hostAt n) c) := by
  refine .read (reads_control c) fun x => ?_
  refine .ite (fun _ => keeps_pure _) fun _ => ?_
  refine Keeps.bind (fun w hw _ => IsPosting.post hw (.destroy c)) fun _ w hw _ => ?_
  exact hserves.destroy w x.object hw

theorem plain_settle (c : ControlId) : Keeps F (do
    if (← control c).refs = 0 then destroy (hostAt n) c : M Unit) :=
  .read (reads_control c) fun _ =>
    .ite (fun _ => plain_destroy hserves c) fun _ => keeps_pure _

theorem plain_release (hw : R.inv w) (hi : R.loose i w) : R.Good w ((Ownership.release (hostAt n) i).after w) := by
  cases hsh : w.shares[i]? with
  | none =>
    rw [show (release (hostAt n) i).after w = w from
      after_look_none (f := fun w => w.shares[i]?) hsh]
    exact .refl hw
  | some sh =>
    cases hr : sh.released with
    | true =>
      unfold Ownership.release
      rw [after_bind_ok (exec_share_eq_ok.mpr ⟨hsh, rfl⟩), if_pos hr]
      exact .refl hw
    | false =>
      rw [after_release hsh hr]
      have hg := IsPosting.post hw (.giveUp hi hsh hr)
      exact hg.trans ((plain_settle hserves _).good hg.1)

omit hserves in
theorem plain_severWrapper (o : NativeId) : Keeps F (Ownership.severWrapper o) := by
  intro w hw _
  rcases after_severWrapper o w with he | he | ⟨n, r, x, log, hn, hr, hx, hs, he⟩
  · rw [he]
    exact .refl hw
  · rw [he]
    exact IsPosting.post hw (.untie o)
  · rw [he]
    exact IsPosting.post hw (.sever hn hr hx hs)

theorem plain_destroyOf (o : NativeId) : Keeps F (do Ownership.destroy (hostAt n) (← Ownership.controlOf o)) := by
  refine Keeps.bind (fun w hw _ => ?_) fun c => plain_destroy hserves c
  cases hn : w.natives[o]? with
  | none =>
    rw [after_controlOf_missing hn]
    exact .refl hw
  | some x =>
    cases hc : x.token.control with
    | some c =>
      rw [after_eq (exec_controlOf_some hn hc)]
      exact .refl hw
    | none =>
      rw [after_eq (exec_controlOf_none hn hc)]
      exact IsPosting.post hw .control

theorem plain_dispose (o : NativeId) : Keeps F (dispose (hostAt n) o) :=
  (plain_severWrapper o).bind fun _ => plain_destroyOf hserves o

omit hserves [IsPosting R] in
theorem plain_pushStash (h : HeapId) : Keeps F (modifyHeap h fun s => s.push (.object s.stash)) :=
  keeps_modifyHeap fun _ _ _ _ _ => amends_push fun hs => holdsValue_object.mpr hs.stash

theorem plain_addMethods (b : BridgeId) (h : HeapId) (proto : Int) {methods : List Callable}
    (hmethods : F.Gives (Propers methods)) :
    Keeps F (Bridge.addMethods (hostAt n) b h proto methods) := by
  refine Keeps.forM fun m hm => (keeps_pushFunc (plain_collects hserves) h _ _ _ fun b' c he => ?_).bind
    fun _ => (keeps_putProp h _ _).onFault (keeps_popN h 3)
  obtain ⟨rfl, rfl⟩ := Code.bound.inj (Option.some.inj he)
  exact fun w hF => ⟨IsPosting.usable b w, hmethods w hF m hm⟩

theorem plain_buildPrototype (b : BridgeId) (h : HeapId) {d : ClassDecl}
    (hd : F.Gives (Propers d.methods)) (hk : F.Gives (ClassKey d.key)) :
    Keeps F (Bridge.buildPrototype (hostAt n) b h d) :=
  (keeps_pushObject (plain_collects hserves) h).bind fun proto =>
    (plain_addMethods hserves b h proto hd).bind fun _ => (keeps_changeHeap amends_dup).bind fun _ =>
    ((keeps_putKey _ fun w hF => .inr (hk w hF)).onFault (keeps_popN h 3)).bind fun _ =>
    (keeps_changeHeap amends_swap).bind fun _ => (keeps_popN h 1).bind fun _ =>
    keeps_reportPrototype b d

theorem plain_pushPrototype (b : BridgeId) (c : ClassId) : Keeps F (Bridge.pushPrototype (hostAt n) b c) := by
  refine (keeps_of_reads (reads_classDecl c)).bind_fact
    (G := fun d => (Propers d.methods).and (ClassKey d.key)) (fun d w w' hw _ he _ => ?_) fun d => ?_
  · obtain ⟨hd, rfl⟩ := exec_classDecl_eq_ok.mp he
    exact ⟨fun m hm => R.proper_class hw hd (List.mem_append_left _ hm), c, d, hd, rfl⟩
  · refine .read (reads_bridge b) fun x => (keeps_readHeap _ _).bind fun _ =>
      (plain_pushStash _).bind fun _ => (keeps_onHeap amends_getHidden).bind fun found => ?_
    refine .ite (fun _ => ?_) fun _ => ?_
    · exact (keeps_changeHeap amends_swap).bind fun _ => keeps_popN _ 1
    · exact (keeps_popN _ 1).bind fun _ =>
        plain_buildPrototype hserves b _ Fact.and_left Fact.and_right

omit hserves [IsPosting R] in
theorem plain_pushFinalizer (h : HeapId) : Keeps F (pushFinalizer h) :=
  (plain_pushStash h).bind fun _ => (keeps_onHeap amends_getHidden).bind fun _ =>
    (keeps_changeHeap amends_swap).bind fun _ => keeps_popN h 1

omit hserves [IsPosting R] in
theorem keeps_equipWrapper (hf : Keeps F (changeHeap h f)) : Keeps F (equipWrapper h f) := by
  refine hf.catchFault.bind fun r => ?_
  cases r with
  | ok _ => exact keeps_pure _
  | error f => exact keeps_breach _

theorem plain_blankWrapper (b : BridgeId) (h : HeapId) (c : ClassId) :
    Keeps F (Bridge.blankWrapper (hostAt n) b h c) := by
  exact (keeps_readHeap h _).bind fun _ => (keeps_pushObject (plain_collects hserves) h).bind fun i =>
    ((plain_pushPrototype hserves b c).onFault (keeps_popN h 1)).bind fun _ =>
    (keeps_equipWrapper (keeps_changeHeap amends_setPrototype)).bind fun _ =>
    (plain_pushFinalizer h).bind fun _ =>
      (keeps_equipWrapper fun _ hw _ => good_write hw fun _ _ _ he => writes_setFinalizer he).returns

omit hserves in
theorem plain_putRecord (i : Int) (hw : R.inv w) (hr : w.Seats h r)
    (hkey : key = objectKey ∨ w.Keyed key) : R.Good w ((putRecord h i key r).after w) := by
  refine Good.bind ((keeps_push rfl).good hw) fun _ w1 he hg => ?_
  rw [after_ignoreFault]
  cases he
  refine good_write hg.1 fun s s' hs he => writes_putHidden he fun v hv => ?_
  rcases hkey with rfl | hkey
  · refine .inr ⟨rfl, r, ?_, hr⟩
    have hs : (w.heaps.modify h (·.push (.pointer (.record (some r)))))[h]? = some s := hs
    rw [Array.getElem?_modify, if_pos rfl] at hs
    obtain ⟨t, -, rfl⟩ := Option.map_eq_some_iff.mp hs
    exact (Option.some.inj (Array.back?_push.symm.trans hv)).symm
  · exact .inl (.inr hkey)

omit hserves [IsPosting R] in
theorem putRecord_eq_ok {i : Int} {u : Unit} (he : (putRecord h i key r).exec w = (.ok u, w')) :
    ∃ heaps, w' = { w with heaps } := by
  obtain ⟨_, w1, hpush, hput⟩ := bind_ok_iff.mp he
  cases hpush
  rw [← after_eq hput, after_ignoreFault]
  rcases after_onHeap_cases h _ _ with he | ⟨_, _, _, _, _, he⟩
  · exact ⟨_, he⟩
  · exact ⟨_, he⟩

omit hserves in
theorem plain_bindWrapper (b : BridgeId) (h : HeapId) (hb : F.Gives (Stationed b h))
    (hc : F.Gives (Fits c o)) (i : Int) : Keeps F (bindWrapper b h o c i) := by
  intro w0 hw0 hF0
  refine Good.bind_reads hw0 (reads_classDecl c) fun d hd => ?_
  obtain ⟨hd, -⟩ := exec_classDecl_eq_ok.mp hd
  refine Good.bind ((keeps_breach _).good hw0) fun _ w _ hg0 => ?_
  rcases htake : (Ownership.take o).exec w with ⟨e | share, w1⟩
  · rw [after_bind_error htake, ← after_eq htake]
    exact (good_take o hg0.1).1
  rw [after_bind_ok htake]
  have hg1 : R.Good w w1 := by
    rw [← after_eq htake]
    exact (good_take o hg0.1).1
  have hF1 := F.stable (hg0.trans hg1).2 hF0
  rcases hptr : (readHeap h (·.pointerAt i)).exec w1 with ⟨e | ptr, w1'⟩
  · obtain rfl := (reads_readHeap h _).exec hptr
    rw [after_bind_error hptr]
    exact hg1
  obtain rfl := (reads_readHeap h _).exec hptr
  let x : Record := { bridge := b, cls := c, share := some share, ptr }
  have hbound : R.Good w (w1'.bind o x) := IsPosting.post hg0.1 (.bind htake (hb w1' hF1) (hc w1' hF1))
  have hseats : (w1'.bind o x).Seats h w1'.records.size := by
    obtain ⟨br, hbr, hid⟩ := hb w1' hF1
    refine ⟨x, Array.getElem?_push_size, countWrapped br, ?_, hid⟩
    exact modify_self hbr
  have hkeyed : (w1'.bind o x).Keyed d.key := by
    obtain ⟨d', hd', he⟩ := (R.later (hg0.trans hg1).2).classes c d hd
    exact ⟨c, d', hd', (Prod.mk.inj he).1⟩
  rw [after_bind_ok hptr, after_bind_ok (exec_get w1'),
    after_bind_ok (show (modify (·.bind o x) : M Unit).exec w1' = (.ok (), w1'.bind o x) from rfl)]
  refine hbound.trans (Good.bind (plain_putRecord i hbound.1 hseats (.inr hkeyed)) fun _ w2 hput hg2 => ?_)
  obtain ⟨heaps, rfl⟩ := putRecord_eq_ok hput
  exact Good.bind (plain_putRecord i hg2.1 hseats (.inl rfl)) fun _ w3 _ hg3 =>
    (keeps_reportWrapped b d ptr).good hg3.1

omit hserves [IsPosting R] in
theorem plain_pushWrapper (b : BridgeId) (h : HeapId) (cls : String) (r : RecordId) :
    Keeps F (pushWrapper b h cls r) := by
  refine .read (reads_record r) fun x => ?_
  simp only [fail_bind]
  refine .ite (fun _ => keeps_fail _) fun _ => (keeps_readHeap h _).bind fun _ =>
    (keeps_changeHeap amends_pushPointer).catchFault.bind fun done => ?_
  cases done with
  | ok _ => exact keeps_modifyBridge fun _ => ⟨rfl, rfl, rfl⟩
  | error f => exact keeps_fail _

theorem plain_wrap (b : BridgeId) (hc : F.Gives (Fits c o)) : Keeps F (Bridge.wrap (hostAt n) b o c) := by
  refine .read (reads_classDecl c) fun d =>
    (keeps_of_reads (reads_bridge b)).bind_fact (G := fun x => (Stationed b x.heapId).and F)
      (fun x w w' _ hF he _ => ?_) fun x =>
    .read (reads_isDisposed o) fun disposed => ?_
  · obtain ⟨hx, rfl⟩ := exec_bridge_eq_ok.mp he
    exact ⟨⟨x, hx, rfl⟩, hF⟩
  simp only [fail_bind]
  refine .ite (fun _ => keeps_fail _) fun _ => .read (reads_native o) fun y => ?_
  split
  · exact plain_pushWrapper b _ _ _
  · exact (keeps_register b c).bind fun _ => (plain_blankWrapper hserves b _ c).bind fun i =>
      plain_bindWrapper b _ Fact.and_left (fun w hF => hc w hF.2) i

theorem plain_unlink {x : Record} (hw : R.inv w) (hfound : R.Finds h r w) (ht : R.tends h b w)
    (hx : w.records[r]? = some x) (hsevered : x.severed = false) :
    R.Good w ((Bridge.unlink (hostAt n) b r).after w) := by
  rcases after_unlink (hostAt n) b hx hsevered with he | ⟨i, sh, log, hlive, hsh, ⟨hnone, he⟩ | he⟩
  · rw [he]
    exact .refl hw
  · rw [he]
    exact IsPosting.post hw (.unlinkSpent ht hlive hsh (.inr hnone))
  · rw [he]
    cases hr : sh.released with
    | true =>
      unfold Ownership.release
      rw [after_bind_ok (w := w.unlinking b r sh.object log) (exec_share_eq_ok.mpr ⟨hsh, rfl⟩), if_pos hr]
      exact IsPosting.post hw (.unlinkSpent ht hlive hsh (.inl hr))
    | false =>
      rw [after_release (w := w.unlinking b r sh.object log) hsh hr]
      have hg : R.Good w ((w.unlinking b r sh.object log).giveUp i sh.control) :=
        IsPosting.post hw (.unlink hfound ht hlive hsh hr)
      exact hg.trans ((plain_settle hserves _).good hg.1)

theorem plain_dropRecord (hw : R.inv w) (hfound : R.Finds h r w) (ht : R.tends h b w) :
    R.Good w ((Bridge.dropRecord (hostAt n) b h r).after w) := by
  refine Good.bind_reads hw (reads_record r) fun x hx => ?_
  obtain ⟨hx, -⟩ := exec_record_eq_ok.mp hx
  refine Good.bind (good_writeOn hw fun _ _ _ _ he => writes_delHidden he (.inl rfl)) fun _ w1 he1 hg1 => ?_
  obtain ⟨_, s1, -, -, rfl⟩ := exec_onHeap_eq_ok.mp he1
  refine Good.bind_reads hg1.1 (reads_classDecl _) fun d hd => ?_
  have hkeyed : (w.setHeap h s1).Keyed d.key := ⟨_, d, (exec_classDecl_eq_ok.mp hd).1, rfl⟩
  refine Good.bind (good_writeOn hg1.1 fun _ _ _ _ he => writes_delHidden he (.inr hkeyed)) fun _ w2 he2 hg2 => ?_
  obtain ⟨_, s2, -, -, rfl⟩ := exec_onHeap_eq_ok.mp he2
  split
  case isTrue => exact IsPosting.post hg2.1 (.discard r)
  case isFalse hs =>
    refine plain_unlink hserves hg2.1 ?_ (R.tends_stable (hg1.trans hg2).2 ht) hx (by simpa using hs)
    obtain ⟨v, s, hv, hshows, rfl⟩ := hfound
    exact ⟨v, s2, hv, hshows, by rw [setHeap_setHeap, setHeap_setHeap]⟩

theorem plain_finalizeWrapper (hw : R.inv w) (ht : R.tends h b w) : R.Good w ((finalize (hostAt n) b h).after w) := by
  have hnoted : R.Good w ((noteFinalizer h).after w) := IsPosting.post hw (.force _)
  refine Good.bind hnoted fun _ w1 _ hg1 => Good.bind_reads hg1.1 (reads_readHeap h _) fun _ _ => ?_
  have hget : Keeps (noFact (R := R)) (catchFault (onHeap h (·.getHidden 0 objectKey))) :=
    (keeps_onHeap amends_getHidden).catchFault
  refine Good.bind (hget w1 hg1.1 trivial) fun found w2 hfound hg2 =>
    Good.bind_reads hg2.1 (reads_heap h) fun s hs =>
    Good.bind ((keeps_popN h 1).good hg2.1) fun _ w3 hpop hg3 => ?_
  split
  case h_1 r hrecord =>
    obtain ⟨hs, -⟩ := exec_heap_eq_ok.mp hs
    obtain ⟨_, s3, -, -, rfl⟩ := exec_changeHeap_eq_ok.mp hpop
    obtain ⟨_, hok, hgot⟩ | ⟨_, hfault, -⟩ := exec_catchFault_eq_ok hfound
    · cases hok
      obtain ⟨_, s2, hs0, hread, rfl⟩ := exec_onHeap_eq_ok.mp hgot
      cases hs.symm.trans (get_setHeap hs0 s2)
      obtain ⟨p, o, ho, hkey⟩ := carried_of_getHidden hread hrecord
      exact Good.bind (plain_dropRecord hserves hg3.1 ⟨_, s3, hg2.1, ⟨s, p, o, hs, ho, hkey⟩, rfl⟩
        (R.tends_stable ((hg1.trans hg2).trans hg3).2 ht)) fun _ _ _ hg => .refl hg.1
    · simp at hfault
  case h_2 => exact .refl hg3.1

theorem plain_equip {v : World} {s1 : Heap} (strict : Bool) (hv : R.inv v) (hs0 : v.heaps[h]? = some s)
    (hw : R.inv w) (hs : w.heaps[h]? = some s1) (hopen : s.closed = false) (hs1 : s1 = s.push (.object s.stash))
    (hnone : s1.hasHidden (-1) bridgeKey = .ok false) :
    R.Good w ((Bridge.equip (hostAt n) h strict).after w) := by
  let b := w.bridges.size
  let s2 : Heap := s1.push (.pointer (.bridge b))
  let w1 : World := { w with bridges := w.bridges.push { heapId := h, strict, logs := w.logging } }
  have hs' : w1.heaps[h]? = some s1 := hs
  have hs2 : (w1.setHeap h s2).heaps[h]? = some s2 := get_setHeap hs' s2
  obtain ⟨s', hafter, hg⟩ : ∃ s', (ignoreFault (changeHeap h (·.putHidden (-2) bridgeKey))).after
      (w1.setHeap h s2) = w.attaching h s' strict ∧ R.Good w (w.attaching h s' strict) := by
    rw [after_ignoreFault]
    cases hput : s2.putHidden (-2) bridgeKey with
    | error e =>
      rw [after_eq (exec_changeHeap_error hs2 hput)]
      exact ⟨s2, rfl, IsPosting.post hw (.attach hv hs0 hs hopen hs1 hnone rfl (.inr ⟨⟨e, hput⟩, rfl⟩))⟩
    | ok s' =>
      rw [after_eq (exec_changeHeap_ok hs2 hput), setHeap_setHeap]
      exact ⟨s', rfl, IsPosting.post hw (.attach hv hs0 hs hopen hs1 hnone rfl (.inl hput))⟩
  have hrest : Keeps (Stationed (R := R) b h) (do
      let _ ← pushFunc (hostAt n) h "heapbridge.finalize" 1 (some (.finalizer b))
      ignoreFault (changeHeap h (·.putHidden (-2) finalizerKey))
      changeHeap h (·.popN 1)
      return b) := by
    refine (keeps_pushFunc (plain_collects hserves) h _ _ _ (fun _ _ he => absurd he (by simp))
      fun _ he w' hF => ?_).bind fun _ => (keeps_putKey _ fun _ _ => .inl rfl).ignoreFault.bind fun _ =>
      (keeps_popN h 1).returns
    obtain rfl := Code.finalizer.inj (Option.some.inj he)
    exact IsPosting.tends hF
  unfold equip
  rw [after_bind_ok (exec_get w), after_bind_ok (show (set w1 : M Unit).exec w = (.ok (), w1) from rfl),
    after_bind_ok (exec_modifyHeap hs' _)]
  rcases he : (ignoreFault (changeHeap h (·.putHidden (-2) bridgeKey))).exec (w1.setHeap h s2) with ⟨e | u, w2⟩
  · rw [after_bind_error he, ← after_eq he, hafter]
    exact hg
  · rw [after_bind_ok he]
    obtain rfl : w.attaching h s' strict = w2 := hafter.symm.trans (after_eq he)
    exact hg.trans (hrest _ hg.1 ⟨_, Array.getElem?_push_size, rfl⟩)

theorem plain_attach (h : Option HeapId) (strict : Bool) : Keeps F (Bridge.attach (hostAt n) h strict) := by
  cases h with
  | none => exact keeps_fail _
  | some h =>
  intro w hw _
  refine Good.bind_reads hw (reads_heap h) fun s hs => ?_
  obtain ⟨hs, -⟩ := exec_heap_eq_ok.mp hs
  simp only [fail_bind]
  split
  case isTrue => exact .refl hw
  case isFalse hopen =>
  refine Good.bind_reads hw (reads_readHeap h _) fun _ _ => ?_
  have hpushed : R.Good w (w.setHeap h (s.push (.object s.stash))) :=
    R.amend hw hs (amends_push fun hs => holdsValue_object.mpr hs.stash)
  have hs1 := get_setHeap hs (s.push (.object s.stash))
  rw [after_bind_ok (exec_modifyHeap hs _)]
  refine hpushed.trans (Good.bind_reads hpushed.1 (reads_readHeap h _) fun found hfound => ?_)
  obtain ⟨t, ht, hhas, -⟩ := exec_readHeap_eq_ok.mp hfound
  cases hs1.symm.trans ht
  split
  case isTrue =>
    exact Good.bind ((keeps_popN h 1).good hpushed.1) fun _ _ _ hg => .refl hg.1
  case isFalse hfalse =>
    rw [Bool.not_eq_true] at hfalse
    exact plain_equip hserves strict hw hs hpushed.1 hs1 (by simpa using hopen) rfl (hfalse ▸ hhas)

theorem plain_upholds : R.Upholds n where
  serves := hserves
  invokes := plain_invokes hserves
  collects := plain_collects hserves
  closes _ _ hw _ := plain_closes hserves hw
  makes _ l storage owns hw := (plain_makes hserves l storage owns).good hw
  releases _ _ hw hi := plain_release hserves hw hi
  disposes _ o hw := (plain_dispose hserves o).good hw
  prototypes _ b c hw _ := (plain_pushPrototype hserves b c).good hw
  wraps w b o c hw _ hc := plain_wrap (F := Fits c o) hserves b .rfl w hw hc
  finalizes _ _ _ hw ht := plain_finalizeWrapper hserves hw ht
  attaches _ h strict hw := ⟨(plain_attach hserves h strict).good hw, fun b w' _ => IsPosting.usable b w'⟩

end Served

end Posting

theorem plain_serves [IsPosting R] (n : Nat) : R.Serves n := serves (fun _ => plain_upholds) n

theorem inv_world [IsPosting R] {script : Script} {n : Nat} {recording : Bool}
    (hstart : R.inv { logging := script.logging, recording }) : R.inv (script.world n recording) :=
  ((keeps_work (plain_upholds (plain_serves n)) script).good hstart).1

end Regime

theorem World.Sound.run {n : Nat} (hw : w.Sound) (outermost : Bool) (p : Program) :
    ((p.run (hostAt n) outermost).after w).Sound :=
  (Regime.keeps_run (R := Regime.plain) (F := Regime.noFact)
    (Regime.plain_upholds (Regime.plain_serves n)) outermost p w hw trivial).1

end Tether
