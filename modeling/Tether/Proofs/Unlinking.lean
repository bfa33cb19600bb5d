import Tether.Proofs.Atomicity
import Tether.Proofs.Resolution

/-!
# Unlinking

The finalizer of wrappers needs one free slot of the stack before it does anything. The collector calls
it with two values on the stack that nobody asked for room for, so what it does hangs on how full the
stack was.
-/

namespace Tether

open Bridge (objectKey)
open Regime M Bridge Ownership World

variable {h : HeapId} {s : Heap} {w : World} {a : NativeId} {m : NativeObject} {p : HeapPtr}
  {o : Object} {b : BridgeId} {r : RecordId} {x : Record}

/-! ## Room for the finalizer -/

namespace Heap

variable {fn : HeapPtr}

/-- The heap in which the collector enters a finalizer of arity one. -/
def entered (s : Heap) (p : HeapPtr) (o : Object) (fn : HeapPtr) : Heap := s.finalizerSite.enter (s.offer p o) fn 1

theorem value?_entered : (s.entered p o fn).value? 0 = some (.object p) := value?_enter s p o fn 1

theorem object?_entered (q : HeapPtr) : (s.entered p o fn).object? q = s.object? q := by
  unfold entered Site.enter fitArguments object?
  split
  · rfl
  · split <;> rfl

theorem limits_entered : (s.entered p o fn).limits = s.limits := by
  unfold entered Site.enter fitArguments
  split
  · rfl
  · split <;> rfl

theorem requireStack_entered (hcount : s.stack.size + 3 < 2 ^ 63) :
    (s.stack.size + 3 ≤ s.limits.stack → (s.entered p o fn).requireStack 1 = .ok ()) ∧
    (s.limits.stack < s.stack.size + 3 → ∃ f, (s.entered p o fn).requireStack 1 = .error (.fault f)) := by
  have hsize : (s.entered p o fn).stack.size = s.stack.size + 2 := by
    rw [← size_offer s p o, ← stack_enter_one s p o fn]
    rfl
  have hneed : wrapCount (((s.entered p o fn).stack.size : Int) + 1) = s.stack.size + 3 := by
    rw [hsize]
    exact wrapCount_of_lt hcount
  unfold requireStack
  rw [if_neg (by decide), hneed, limits_entered]
  refine ⟨fun hroom => if_neg (Int.not_lt.mpr hroom), fun hfull => ?_⟩
  rw [if_pos hfull]
  exact ⟨_, rfl⟩

end Heap

/-! ## What unlinking does -/

theorem NativeObject.record_leave_ne (m : NativeObject) (r : RecordId) : (m.leave r).token.record ≠ some r := by
  unfold leave
  split
  · simp
  · assumption

namespace World

/-- A record was parted from its wrapper and its object: the wrapper lost both keys, the record its
pointer and its share, no token of the object names the record, and the bridge counts one wrapper
less. -/
structure Parted (w v : World) (b : BridgeId) (h : HeapId) (p : HeapPtr) (key : String) (r : RecordId)
    (x : Record) (a : NativeId) : Prop where
  wrapper : ∃ s y, v.heaps[h]? = some s ∧ s.object? p = some y ∧ y.hidden.get? objectKey = none ∧
    y.hidden.get? key = none
  record : v.records[r]? = some { x with share := none, ptr := .null }
  token : ∀ t, v.token? a = some t → t.record ≠ some r
  live : ∀ br, w.bridges[b]? = some br → ∃ br', v.bridges[b]? = some br' ∧
    br'.stats.live = br.stats.live - 1 ∧ br'.stats.finalized = br.stats.finalized + 1

variable {key : String} {log : Array LogEntry}

theorem parted_unlinking (hs : w.heaps[h]? = some s) (ho : s.object? p = some o)
    (hobject : o.hidden.get? objectKey = none) (hkey : o.hidden.get? key = none)
    (hx : w.records[r]? = some x) : w.Parted (w.unlinking b r a log) b h p key r x a := by
  refine ⟨⟨s, o, hs, ho, hobject, hkey⟩, ?_, fun t ht => ?_, fun br hbr => ?_⟩
  · exact modify_self hx
  · have ht : ((w.natives.modify a (·.leave r))[a]?).map (·.token) = some t := ht
    rw [Array.getElem?_modify, if_pos rfl, Option.map_map] at ht
    obtain ⟨m, -, rfl⟩ := Option.map_eq_some_iff.mp ht
    exact m.record_leave_ne r
  · exact ⟨_, modify_self hbr, rfl, rfl⟩

end World

namespace Bridge

variable {host : Host} {i : ShareId} {d : ClassDecl} {sh : Share} {br : Bridge}

/-- Unlinking a live record, whose object's token names it unless that was tampered with. A bridge that
is not strict only reports the latter. -/
theorem exec_unlink_live (hx : w.Live r x i) (hd : w.classes[x.cls]? = some d)
    (hi : w.shares[i]? = some sh) (hm : w.natives[sh.object]? = some m)
    (hbr : w.bridges[b]? = some br) (hfit : m.token.record = some r ∨ br.strict = false) :
    ∃ log, (unlink host b r).exec w = (release host i).exec (w.unlinking b r sh.object log) := by
  unfold unlink
  rw [bind_ok (exec_record_eq_ok.mpr ⟨hx.1, rfl⟩),
    bind_ok (exec_classDecl_eq_ok.mpr ⟨hd, rfl⟩), bind_ok (exec_need_eq_ok.mpr ⟨hx.2.2, rfl⟩),
    bind_ok (exec_share_eq_ok.mpr ⟨hi, rfl⟩), bind_ok (exec_native hm)]
  have hnatives := natives_leave hm r
  split at hnatives
  case isTrue hr =>
    obtain ⟨log, hlog⟩ := exec_part host r sh.object i d hbr w.log
    rw [hnatives] at hlog
    simp only [if_pos hr]
    exact ⟨log, (bind_ok rfl).trans hlog⟩
  case isFalse hr =>
    obtain ⟨log, hbroken⟩ := exec_reportBroken hbr (hfit.resolve_left hr)
      (.identityCorruption .finalize d.name "token does not point at the finalized record")
    obtain ⟨log', hlog⟩ := exec_part host r sh.object i d hbr log
    rw [hnatives] at hlog
    simp only [if_neg hr]
    exact ⟨log', (bind_ok hbroken).trans hlog⟩

theorem finalize_eq_error {e : Stop} (hs : w.heaps[h]? = some s) (hfull : s.requireStack 1 = .error e) :
    (finalize host b h).exec w = (.error e, w.noting s) := by
  unfold finalize
  rw [bind_ok (exec_noteFinalizer hs)]
  refine bind_error ?_
  rw [exec_readHeap (w := w.noting s) hs, hfull]

end Bridge

/-! ## Wrapping again -/

theorem World.Ledger.exec_isDisposed (hl : w.Ledger) (hm : w.natives[a]? = some m)
    (halive : ¬ w.Disposed a) : (isDisposed a).exec w = (.ok false, w) := by
  unfold isDisposed
  rw [bind_ok (exec_native hm)]
  cases hc : m.token.control with
  | none => rfl
  | some c =>
    have ht := token?_of_native hm
    obtain ⟨k, hk, -⟩ := hl.owned a m.token c ht hc
    rw [bind_ok (exec_control_eq_ok.mpr ⟨hk, rfl⟩)]
    cases hd : k.destroyed with
    | false => rfl
    | true => exact absurd ⟨m.token, c, k, ht, hc, hk, hd⟩ halive

theorem Bridge.exec_wrap_alive {host : Host} {b : BridgeId} {br : Bridge} {c : ClassId} {d : ClassDecl}
    (hd : w.classes[c]? = some d) (hbr : w.bridges[b]? = some br)
    (halive : (isDisposed a).exec w = (.ok false, w)) (hm : w.natives[a]? = some m) :
    (wrap host b a c).exec w = (match m.token.record with
      | some r => pushWrapper b br.heapId d.name r
      | none => do
        register b c
        makeWrapper host b br.heapId a c).exec w := by
  unfold wrap
  rw [bind_ok (exec_classDecl_eq_ok.mpr ⟨hd, rfl⟩), bind_ok (exec_bridge_eq_ok.mpr ⟨hbr, rfl⟩), bind_ok halive]
  refine (bind_ok (exec_native hm)).trans ?_
  cases m.token.record <;> rfl

theorem Bridge.exec_pushWrapper {cls : String} {r : RecordId} {x : Record} (hx : w.records[r]? = some x)
    (hs : w.heaps[h]? = some s) (hroom : s.requireStack 1 = .ok ()) (hptr : (s.object? x.ptr).isSome = true) :
    ∃ w', (pushWrapper x.bridge h cls r).exec w = (.ok (), w') ∧ w'.heaps[h]? = some (s.push (.object x.ptr)) := by
  have hpush := Heap.pushPointer_eq_ok.mpr ⟨hptr, rfl⟩
  unfold pushWrapper
  rw [bind_ok (exec_record_eq_ok.mpr ⟨hx, rfl⟩)]
  simp only [ne_eq, not_true, if_false]
  rw [bind_ok (exec_readHeap_eq_ok.mpr ⟨s, hs, hroom, rfl⟩),
    bind_ok (by rw [exec_catchFault, exec_changeHeap_ok hs hpush]; rfl)]
  exact ⟨_, rfl, get_setHeap hs _⟩

namespace World

/-- No token of the world leads to a wrapper that was swept: an object that was not destroyed gets a new
wrapper if its token names no record; otherwise the record ties it to a wrapper, which is pushed if the
stack has room. -/
def Wrappable (w : World) (host : Host) : Prop :=
  ∀ a m b br c d, w.natives[a]? = some m → w.bridges[b]? = some br → w.classes[c]? = some d →
    (m.token.record = none → ¬ w.Disposed a → (wrap host b a c).exec w = (do
      register b c
      makeWrapper host b br.heapId a c : M Unit).exec w) ∧
    ∀ r, m.token.record = some r → w.Tethered a m.token r ∧
      ∀ x s, w.records[r]? = some x → x.bridge = b → w.heaps[br.heapId]? = some s →
        s.requireStack 1 = .ok () → ∃ w', (wrap host b a c).exec w = (.ok (), w') ∧
          w'.heaps[br.heapId]? = some (s.push (.object x.ptr))

theorem Identity.wrappable (hi : w.Identity none) (host : Host) : w.Wrappable host := by
  intro a m b br c d hm hbr hd
  have ht := token?_of_native hm
  refine ⟨fun hnone halive => ?_, fun r hr => ⟨hi.tethered ht hr, ?_⟩⟩
  · rw [exec_wrap_alive hd hbr (hi.ledger.exec_isDisposed hm halive) hm, hnone]
  · rintro x s hx rfl hs hroom
    have htied := hi.tethered ht hr
    rw [exec_wrap_alive hd hbr (hi.ledger.exec_isDisposed hm (htied.not_disposed ht)) hm, hr]
    obtain ⟨x', i, sh, k, br', d', s', hlive, -, -, hbr', -, hs', ⟨o, -, ho, -⟩, -⟩ := htied
    cases hx.symm.trans hlive.1
    cases hbr.symm.trans hbr'
    cases hs.symm.trans hs'
    exact exec_pushWrapper hx hs hroom (by rw [ho]; rfl)

end World

/-- **Finalization unlinks.** The collector enters the finalizer of a bridge for the object `p`, which
carries the record `r`, on a heap whose stack had some height before the call.

If fewer than three slots were free, the finalizer fails and nothing is unlinked: the world is as it was,
but for the note that the finalizer ran. With three free slots it does not fail. Both keys go from the
object. A severed record loses its pointer, and that is all. A live record is parted from its wrapper
and its object, the bridge counts one wrapper less, and then its share is given up, once; the object is
destroyed if that was its last share.

So in a run that keeps to the rules of bridges, in which all collections find three free slots, no token
ever names a wrapper that was swept, and objects that outlive their wrappers can be wrapped again. -/
theorem finalize_unlinks {host : Host} {w : World} {b : BridgeId} {h : HeapId} {s : Heap}
    {p fn : HeapPtr} {o : Object} {r : RecordId} {x : Record} {d : ClassDecl}
    (hs : w.heaps[h]? = some (s.entered p o fn)) (hcount : s.stack.size + 3 < 2 ^ 63)
    (ho : s.object? p = some o) (hkey : o.hidden.get? objectKey = some (.pointer (.record (some r))))
    (hx : w.records[r]? = some x) (hd : w.classes[x.cls]? = some d) :
    (s.limits.stack < s.stack.size + 3 →
      ∃ f, (Bridge.finalize host b h).exec w = (.error (.fault f), w.noting (s.entered p o fn))) ∧
    (s.stack.size + 3 ≤ s.limits.stack → ∃ v : World, v = (w.noting (s.entered p o fn)).setHeap h
          (((s.entered p o fn).bare p objectKey).bare p d.key) ∧
      (x.severed = true → (Bridge.finalize host b h).exec w =
        (.ok 0, { v with records := v.records.modify r fun x => { x with ptr := .null } })) ∧
      ∀ (i : ShareId) (sh : Share) (m : NativeObject) (br : Bridge), w.Live r x i →
        w.shares[i]? = some sh → w.natives[sh.object]? = some m → w.bridges[b]? = some br →
        (m.token.record = some r ∨ br.strict = false) →
        ∃ log, w.Parted (v.unlinking b r sh.object log) b h p d.key r x sh.object ∧
          (Bridge.finalize host b h).exec w = (do
            Ownership.release host i
            return 0 : M Int).exec (v.unlinking b r sh.object log) ∧
          ∀ k : Control, sh.released = false → w.controls[sh.control]? = some k →
            (Ownership.release host i).exec (v.unlinking b r sh.object log) =
              (if k.refs - 1 = 0 then Ownership.destroy host sh.control else pure ()).exec
                ((v.unlinking b r sh.object log).giveUp i sh.control)) ∧
    ∀ (script : Script) (n : Nat) (recording : Bool) (y : State), (script.world n recording).Settled →
      (script.world n recording).Met y → (World.ofState y).Wrappable host := by
  obtain ⟨hroom, hfull⟩ : (s.stack.size + 3 ≤ s.limits.stack → (s.entered p o fn).requireStack 1 = .ok ()) ∧
      (s.limits.stack < s.stack.size + 3 → ∃ f, (s.entered p o fn).requireStack 1 = .error (.fault f)) :=
    Heap.requireStack_entered hcount
  refine ⟨fun hlt => ?_, fun hle => ⟨_, rfl, ?_⟩, fun script n recording y hw hy => ?_⟩
  · obtain ⟨f, hf⟩ := hfull hlt
    exact ⟨f, Bridge.finalize_eq_error hs hf⟩
  · have ho1 : (s.entered p o fn).object? p = some o := (Heap.object?_entered p).trans ho
    have hfinalize : (Bridge.finalize host b h).exec w = _ := exec_finalize hs (hroom hle) Heap.value?_entered ho1
    have hdrop : (Bridge.dropRecord host b h r).exec (w.noting (s.entered p o fn)) = _ :=
      exec_dropRecord hs Heap.value?_entered ho1 hx hd
    rw [hkey] at hfinalize
    simp only at hfinalize
    rw [exec_bind_congr hdrop] at hfinalize
    refine ⟨fun hsev => ?_, fun i sh m br hlive hi hm hbr hfit => ?_⟩
    · rw [hfinalize, hsev, if_pos rfl]
      rfl
    · rw [hlive.2.1, if_neg Bool.false_ne_true] at hfinalize
      have hs1 : (w.noting (s.entered p o fn)).heaps[h]? = some (s.entered p o fn) := hs
      let v : World := (w.noting (s.entered p o fn)).setHeap h (((s.entered p o fn).bare p objectKey).bare p d.key)
      obtain ⟨log, hunlink⟩ : ∃ log, (Bridge.unlink host b r).exec v =
          (Ownership.release host i).exec (v.unlinking b r sh.object log) :=
        Bridge.exec_unlink_live hlive hd hi hm hbr hfit
      refine ⟨log, ?_, hfinalize.trans (exec_bind_congr hunlink), fun k hreleased hk => ?_⟩
      · have ho2 := Heap.object?_bare (k := d.key) (Heap.object?_bare (k := objectKey) ho1)
        have hparted : v.Parted (v.unlinking b r sh.object log) b h p d.key r x sh.object :=
          World.parted_unlinking (World.get_setHeap hs1 _) ho2 (by simp [KeyMap.get?_erase])
            (by simp [KeyMap.get?_erase]) hx
        exact ⟨hparted.wrapper, hparted.record, hparted.token, hparted.live⟩
      · exact exec_release (w := v.unlinking b r _ log) hi hreleased hk
  · exact (identity_of_met script hw hy).1.wrappable host

/-- A gadget that is shared is wrapped and its wrapper let go of; then the stack, which holds eight
values, is filled up to a height. -/
def letsGo (height : Nat) : Script :=
  { heap := { stackLimit := 8, gcThreshold := 0 }, logging := false
    program := .ofList (makesGadget ++ [.objects (.share "x" "s"), .bridge (.pushNative (some "x")), .stack .pop] ++
        List.replicate height (.stack .pushNull)) }

/-- The parts of the world of that script that its finalizer deals with. -/
structure LetGo (w : World) (height : Nat) : Prop where
  heap : (w.heaps[0]?.map fun s => (s.stack.size, s.limits.stack,
    (s.object? ⟨4, 1⟩).bind fun o => o.hidden.get? objectKey)) = some (height, 8, some (.pointer (.record (some 0))))
  record : (w.records[0]?.map fun x => (x.severed, x.share, x.cls)) = some (false, some 1, 0)
  share : (w.shares[1]?.map fun sh => (sh.object, sh.released)) = some (0, false)
  token : (w.natives[0]?.map (·.token.record)) = some (some 0)
  bridges : w.bridges.size = 1
  classes : w.classes.size = 1

theorem LetGo.parts {w : World} {height : Nat} (h : LetGo w height) : ∃ s o x d, w.heaps[0]? = some s ∧
    s.object? ⟨4, 1⟩ = some o ∧ o.hidden.get? objectKey = some (.pointer (.record (some 0))) ∧
    s.stack.size = height ∧ s.limits.stack = 8 ∧ w.records[0]? = some x ∧ x.severed = false ∧ x.share = some 1 ∧
    w.classes[x.cls]? = some d := by
  obtain ⟨s, hs, hheap⟩ := Option.map_eq_some_iff.mp h.heap
  simp only [Prod.mk.injEq] at hheap
  obtain ⟨hsize, hlimit, hkey⟩ := hheap
  obtain ⟨o, ho, hkey⟩ := Option.bind_eq_some_iff.mp hkey
  obtain ⟨x, hx, hrecord⟩ := Option.map_eq_some_iff.mp h.record
  simp only [Prod.mk.injEq] at hrecord
  obtain ⟨hsevered, hheld, hcls⟩ := hrecord
  have hd : x.cls < w.classes.size := by rw [hcls, h.classes]; decide
  exact ⟨s, o, x, _, hs, ho, hkey, hsize, hlimit, hx, hsevered, hheld, Array.getElem?_eq_getElem hd⟩

/-- The collector is about to finalize the wrapper. With three free slots it unlinks it, and the gadget,
which is shared, stays; with two it fails, and all stays as it was. -/
theorem finalize_unlinks_letsGo : (∃ (w : World) (t : Heap) (f : Fault), LetGo ((letsGo 6).world 2 false) 6 ∧
      w = ((letsGo 6).world 2 false).setHeap 0 t ∧ t.value? 0 = some (.object ⟨4, 1⟩) ∧
      (Bridge.finalize (hostAt 2) 0 0).exec w = (.error (.fault f), w.noting t)) ∧
    ∃ (w v : World) (t : Heap) (x : Record) (d : ClassDecl), LetGo ((letsGo 5).world 2 false) 5 ∧
      w = ((letsGo 5).world 2 false).setHeap 0 t ∧ t.value? 0 = some (.object ⟨4, 1⟩) ∧
      w.Parted v 0 0 ⟨4, 1⟩ d.key 0 x 0 ∧
      (Bridge.finalize (hostAt 2) 0 0).exec w = (do Ownership.release (hostAt 2) 1; return 0 : M Int).exec v := by
  have hfull : LetGo ((letsGo 6).world 2 false) 6 := by constructor <;> decide +kernel
  have hroom : LetGo ((letsGo 5).world 2 false) 5 := by constructor <;> decide +kernel
  refine ⟨?_, ?_⟩
  · generalize (letsGo 6).world 2 false = w at *
    obtain ⟨s, o, x, d, hs, ho, hkey, hsize, hlimit, hx, -, -, hd⟩ := hfull.parts
    obtain ⟨-, -, hrecords, hclasses, -⟩ := w.books_setHeap 0 (s.entered ⟨4, 1⟩ o .null)
    obtain ⟨herror, -⟩ := @finalize_unlinks (hostAt 2) _ 0 _ _ _ .null _ _ _ _
      (World.get_setHeap hs (s.entered ⟨4, 1⟩ o .null)) (by rw [hsize]; decide) ho hkey
      (by rw [hrecords]; exact hx) (by rw [hclasses]; exact hd)
    obtain ⟨f, hf⟩ := herror (by rw [hsize, hlimit]; decide)
    exact ⟨_, _, f, hfull, rfl, Heap.value?_entered, hf⟩
  · generalize (letsGo 5).world 2 false = w at *
    obtain ⟨s, o, x, d, hs, ho, hkey, hsize, hlimit, hx, hsevered, hheld, hd⟩ := hroom.parts
    obtain ⟨sh, hsh, hshare⟩ := Option.map_eq_some_iff.mp hroom.share
    obtain ⟨hobject, -⟩ := Prod.mk.inj hshare
    obtain ⟨m, hm, htoken⟩ := Option.map_eq_some_iff.mp hroom.token
    have hbr : 0 < w.bridges.size := by rw [hroom.bridges]; decide
    obtain ⟨hnatives, hshares, hrecords, hclasses, hbridges⟩ := w.books_setHeap 0 (s.entered ⟨4, 1⟩ o .null)
    have hx1 : (w.setHeap 0 (s.entered ⟨4, 1⟩ o .null)).records[0]? = some x := by
      rw [hrecords]
      exact hx
    obtain ⟨-, hunlinks, -⟩ := @finalize_unlinks (hostAt 2) _ 0 _ _ _ .null _ _ _ _
      (World.get_setHeap hs (s.entered ⟨4, 1⟩ o .null)) (by rw [hsize]; decide) ho hkey hx1
      (by rw [hclasses]; exact hd)
    obtain ⟨v, -, -, hlive⟩ := hunlinks (by rw [hsize, hlimit]; decide)
    obtain ⟨log, hparted, hexec, -⟩ := hlive 1 sh m _ ⟨hx1, hsevered, hheld⟩
      (by rw [hshares]; exact hsh) (by rw [hnatives, hobject]; exact hm)
      (by rw [hbridges]; exact Array.getElem?_eq_getElem hbr) (.inl htoken)
    rw [hobject] at hparted hexec
    exact ⟨_, _, _, x, _, hroom, rfl, Heap.value?_entered, hparted, hexec⟩

end Tether
