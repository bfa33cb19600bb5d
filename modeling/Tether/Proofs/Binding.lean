import Tether.Proofs.Wrapping

/-!
# Binding an object to a wrapper
-/

namespace Tether

open M Bridge Ownership World Heap

open Bridge (bridgeKey objectKey finalizerKey)

variable {s : Heap} {p q : HeapPtr} {o : Object} {i : Int} {w w1 : World} {h : HeapId} {b : BridgeId}
  {c : ClassId} {d : ClassDecl} {br : Bridge} {obj : NativeId} {share : ShareId}

/-! ## Marking a wrapper -/

namespace Heap

/-- The heap in which an object carries a record under a hidden key. -/
def carry (s : Heap) (p : HeapPtr) (k : String) (r : RecordId) : Heap :=
  s.modifyObject p fun o => { o with hidden := o.hidden.put k (.pointer (.record (some r))) }

/-- The heap in which an object carries a record as the wrappers of a class do. -/
def mark (s : Heap) (p : HeapPtr) (k : String) (r : RecordId) : Heap := (s.carry p k r).carry p objectKey r

variable {k : String} {r : RecordId}

theorem object?_carry (q : HeapPtr) : (s.carry p k r).object? q = if q = p then
    (s.object? q).map fun o => { o with hidden := o.hidden.put k (.pointer (.record (some r))) }
    else s.object? q :=
  Table.get?_modify _ _ _ _

theorem object?_mark_of_ne (hq : q ≠ p) : (s.mark p k r).object? q = s.object? q := by
  unfold mark
  rw [object?_carry, if_neg hq, object?_carry, if_neg hq]

theorem object?_mark (ho : s.object? p = some o) : (s.mark p k r).object? p = some { o with
    hidden := (o.hidden.put k (.pointer (.record (some r)))).put objectKey (.pointer (.record (some r))) } := by
  unfold mark
  rw [object?_carry, if_pos rfl, object?_carry, if_pos rfl, ho]
  rfl

theorem mark_forth {x : Object} (hx : s.object? q = some x) :
    ∃ x', (s.mark p k r).object? q = some x' ∧ x'.body = x.body ∧ x'.finalizer = x.finalizer ∧
      x'.finalized = x.finalized ∧ (q ≠ p → x' = x) := by
  by_cases hq : q = p
  · subst hq
    exact ⟨_, object?_mark hx, rfl, rfl, rfl, fun hne => absurd rfl hne⟩
  · exact ⟨x, (object?_mark_of_ne hq).trans hx, rfl, rfl, rfl, fun _ => rfl⟩

theorem mark_back {x' : Object} (hx' : (s.mark p k r).object? q = some x') :
    ∃ x, s.object? q = some x ∧ x'.body = x.body ∧ x'.finalizer = x.finalizer ∧
      x'.finalized = x.finalized ∧ (q ≠ p → x' = x) := by
  cases hx : s.object? q with
  | none =>
    unfold mark at hx'
    rw [object?_carry, object?_carry, hx] at hx'
    split at hx' <;> simp at hx'
  | some x =>
    obtain ⟨x'', hx'', hfacts⟩ := mark_forth (p := p) (k := k) (r := r) hx
    cases hx'.symm.trans hx''
    exact ⟨x, rfl, hfacts⟩

theorem Finalizes.mark {b : BridgeId} (hf : s.Finalizes q b) : (s.mark p k r).Finalizes q b := by
  obtain ⟨f, name, hq, hbody⟩ := hf
  obtain ⟨f', hq', hbody', -⟩ := mark_forth (p := p) (k := k) (r := r) hq
  exact ⟨f', name, hq', hbody'.trans hbody⟩

theorem Equips.mark {b : BridgeId} (hp : s.stash ≠ p) (he : s.Equips b) : (s.mark p k r).Equips b := by
  obtain ⟨st, q, hst, hq, hf⟩ := he
  exact ⟨st, q, (object?_mark_of_ne hp).trans hst, hq, hf.mark⟩

theorem Wraps.mark {r' : RecordId} {k' : String} {b : BridgeId} (hq : q ≠ p)
    (hw : s.Wraps q r' k' b) : (s.mark p k r).Wraps q r' k' b := by
  obtain ⟨x, f, hx, hkey, hcls, hfin, hf⟩ := hw
  exact ⟨x, f, (object?_mark_of_ne hq).trans hx, hkey, hcls, hfin, hf.mark⟩

theorem Tidy.mark (hp : s.stash ≠ p) (ht : s.Tidy) : (s.mark p k r).Tidy := by
  refine ⟨fun st hst => ?_, fun st hst => ?_, fun q x f g hx hf hg => ?_⟩
  · exact ht.stash st ((object?_mark_of_ne hp).symm.trans hst)
  · exact ht.keyed st ((object?_mark_of_ne hp).symm.trans hst)
  · obtain ⟨x0, hx0, -, hfin, -⟩ := mark_back hx
    obtain ⟨g0, hg0, hbody, -⟩ := mark_back hg
    unfold Object.tame
    rw [hbody]
    exact ht.tame q x0 f g0 hx0 (hfin ▸ hf) hg0

end Heap

/-- The world in which a record binds an object, a heap is as given and the bridge of the record has
counted one more wrapper. -/
def World.bindOn (w : World) (h : HeapId) (s : Heap) (o : NativeId) (x : Record) (log : Array LogEntry) : World :=
  { (w.setHeap h s).bindTo o x with bridges := w.bridges.modify x.bridge countWrapped, log }

/-- The world in which it is noted whether an object that is about to be bound is bound or destroyed. -/
def World.noteRace (w : World) (o : NativeId) : World :=
  { w with breaches := w.breaches.merge { races := w.claims o } }

namespace M

theorem exec_putRecord (hs : w.heaps[h]? = some s) (hbot : s.bottom ≤ s.stack.size) (hi : 0 ≤ i)
    (hv : s.value? i = some (.object p)) (ho : s.object? p = some o) (k : String) (r : RecordId) :
    (putRecord h i k r).exec w = (.ok (), w.setHeap h (s.carry p k r)) := by
  have hs1 := get_setHeap hs (s.push (.pointer (.record (some r))))
  have hput := exec_changeHeap_ok (f := (·.putHidden i k)) hs1 (putHidden_push hbot (value?_push_below hi hv _) ho k)
  rw [setHeap_setHeap] at hput
  unfold putRecord ignoreFault
  rw [bind_ok (exec_modifyHeap hs _), bind_ok (by rw [exec_catchFault, hput]; rfl)]
  rfl

theorem parts_of_take (h : (take obj).exec w = (.ok share, w1)) :
    w1.heaps = w.heaps ∧ w1.bridges = w.bridges ∧ w1.classes = w.classes ∧
      w1.records = w.records ∧ w1.attached = w.attached ∧ w1.names = w.names ∧ w1.forced = w.forced ∧
      w1.history = w.history ∧ share = w.shares.size ∧ w1.shares.size = w.shares.size + 1 := by
  obtain ⟨_, _, w0, -, rfl, rfl, ⟨-, rfl⟩ | ⟨-, -, rfl⟩⟩ := exec_take_eq_ok h <;>
    exact ⟨rfl, rfl, rfl, rfl, rfl, rfl, rfl, rfl, rfl, Array.size_push _⟩

theorem exec_bindWrapper_of {s' : Heap} (hs : w.heaps[h]? = some s) (hptr : s.pointerAt i = .ok p)
    (hd : w.classes[c]? = some d) (hbr : w.bridges[b]? = some br)
    (htake : (take obj).exec (w.noteRace obj) = (.ok share, w1))
    (hput : ∀ v : World, v.heaps[h]? = some s → (do
      putRecord h i d.key w.records.size
      putRecord h i objectKey w.records.size : M Unit).exec v = (.ok (), v.setHeap h s')) :
    ∃ log, (bindWrapper b h obj c i).exec w =
      (.ok (), w1.bindOn h s' obj { bridge := b, cls := c, share := some share, ptr := p } log) := by
  obtain ⟨hheaps, hbridges, -, hrecords, -⟩ := parts_of_take htake
  have hrecords : w1.records = w.records := hrecords
  let x : Record := { bridge := b, cls := c, share := some share, ptr := p }
  have hs1 : w1.heaps[h]? = some s := by rw [hheaps]; exact hs
  have hread : (readHeap h (·.pointerAt i)).exec w1 = (.ok p, w1) := exec_readHeap_eq_ok.mpr ⟨s, hs1, hptr, rfl⟩
  have hcls : (classDecl c).exec w = (.ok d, w) := exec_look_eq_ok.mpr ⟨hd, rfl⟩
  have hnote : (breach fun w => { races := w.claims obj }).exec w = (.ok (), w.noteRace obj) := rfl
  have hbind : (modify (·.bind obj x) : M Unit).exec w1 = (.ok (), w1.bind obj x) := rfl
  obtain ⟨br', hbr', -⟩ : ∃ br', (w1.bind obj x).bridges[b]? = some br' ∧ br'.heapId = br.heapId :=
    modify_forth (f := countWrapped) (g := heapId) (fun _ => rfl)
      (show w1.bridges[b]? = some br by rw [hbridges]; exact hbr)
  obtain ⟨log, hlog⟩ := exec_log br'.logs .debug "wrapper created"
    [("class", .text d.name), ("ptr", .text p.text)] ((w1.bind obj x).setHeap h s')
  have hreport : (reportWrapped b d p).exec ((w1.bind obj x).setHeap h s') =
      (.ok (), { (w1.bind obj x).setHeap h s' with log }) := by
    unfold reportWrapped
    rw [bind_ok (w := (w1.bind obj x).setHeap h s') (exec_bridge_eq_ok.mpr ⟨hbr', rfl⟩)]
    exact hlog
  refine ⟨log, ?_⟩
  unfold bindWrapper
  rw [bind_ok hcls, bind_ok hnote, bind_ok htake, bind_ok hread, bind_ok (exec_get w1), bind_ok hbind]
  rw [← hrecords] at hput
  rw [← bind_assoc, bind_ok (hput (w1.bind obj x) hs1)]
  exact hreport

theorem exec_bindWrapper (hs : w.heaps[h]? = some s) (hbot : s.bottom ≤ s.stack.size) (hi : 0 ≤ i)
    (hv : s.value? i = some (.object p)) (ho : s.object? p = some o)
    (hd : w.classes[c]? = some d) (hbr : w.bridges[b]? = some br)
    (htake : (take obj).exec (w.noteRace obj) = (.ok share, w1)) :
    ∃ log, (bindWrapper b h obj c i).exec w = (.ok (), w1.bindOn h (s.mark p d.key w.records.size) obj
        { bridge := b, cls := c, share := some share, ptr := p } log) := by
  have hptr : s.pointerAt i = .ok p := by
    unfold pointerAt
    rw [hv]
    simp only [deref, ho]
    rfl
  refine exec_bindWrapper_of hs hptr hd hbr htake fun v hs2 => ?_
  have hs3 := get_setHeap hs2 (s.carry p d.key w.records.size)
  have ho3 : (s.carry p d.key w.records.size).object? p = some { o with
      hidden := o.hidden.put d.key (.pointer (.record (some w.records.size))) } := by
    rw [object?_carry, if_pos rfl, ho]
    rfl
  have hput := exec_putRecord (s := s.carry p d.key w.records.size) hs3 hbot hi hv ho3 objectKey w.records.size
  rw [setHeap_setHeap] at hput
  exact (bind_ok (exec_putRecord hs2 hbot hi hv ho d.key w.records.size)).trans hput

end M

namespace World

/-! ## The books -/

theorem Free.noteRace (hf : w.Free obj) : w.noteRace obj = w := by
  have hclaims : w.claims obj = false := by
    obtain ⟨⟨t, ht, hnone⟩, halive⟩ := hf
    obtain ⟨n, hn, rfl⟩ := Option.map_eq_some_iff.mp ht
    rw [claims, hn, Option.any_some, hnone, Option.isSome_none, Bool.false_or, ← Bool.not_eq_true,
      Option.any_eq_true_iff_get]
    rintro ⟨hsome, hdestroyed⟩
    obtain ⟨c, hc, hk⟩ := Option.bind_eq_some_iff.mp (Option.some_get hsome).symm
    exact halive ⟨n.token, c, _, ht, hc, hk, hdestroyed⟩
  rw [World.noteRace, hclaims, Breaches.merge_none]

theorem Free.taken (hf : w.Free obj) (hl : w.Ledger) (htake : (take obj).exec w = (.ok share, w1)) :
    ∃ t sh k, w1.token? obj = some t ∧ t.record = none ∧ w1.shares[share]? = some sh ∧
      sh.object = obj ∧ sh.released = false ∧ w1.controls[sh.control]? = some k ∧
      k.destroyed = false := by
  obtain ⟨⟨t, ht, hnone⟩, halive⟩ := hf
  obtain ⟨t0, t', c, ht0, ht', hrecord, hc, rfl, hshares⟩ := token_of_take htake
  cases ht.symm.trans ht0
  obtain ⟨k, hk, -⟩ := (Regime.ledger_issue hl (issues_take htake).2).owned obj t' c ht' hc
  refine ⟨t', { object := obj, control := c }, k, ht', hrecord.trans hnone, ?_, rfl, rfl, hk, ?_⟩
  · rw [hshares]
    exact Array.getElem?_push_size
  · cases hd : k.destroyed with
    | false => rfl
    | true => exact absurd ((disposed_take htake).mp ⟨t', c, k, ht', hc, hk, hd⟩) halive

/-! ## The invariant -/

section Bind

variable {w' : World} {log : Array LogEntry} (htake : (take obj).exec w = (.ok share, w1)) (hs : w.heaps[h]? = some s)
  (hw' : w' = w1.bindOn h (s.mark p d.key w.records.size) obj { bridge := b, cls := c, share := some share, ptr := p } log)
include htake hs hw'

theorem heaps_bindOn (k : HeapId) :
    w'.heaps[k]? = if k = h then some (s.mark p d.key w.records.size) else w.heaps[k]? := by
  obtain ⟨hheaps, -⟩ := parts_of_take htake
  rw [hw']
  show (w1.setHeap h _).heaps[k]? = _
  rw [heaps_setHeap (s := s) (by rw [hheaps]; exact hs), hheaps]

omit hs in
theorem bridges_bindOn {b' : BridgeId} {br' : Bridge} (hb' : w.bridges[b']? = some br') :
    ∃ br'', w'.bridges[b']? = some br'' ∧ br''.heapId = br'.heapId := by
  obtain ⟨-, hbridges, -⟩ := parts_of_take htake
  rw [hw']
  exact modify_forth (f := countWrapped) (fun _ => rfl) (by rw [hbridges]; exact hb')

omit hs in
theorem live_bindOn {r : RecordId} {y : Record} {j : ShareId} : w'.Live r y j ↔
    (r = w.records.size ∧ y = { bridge := b, cls := c, share := some share, ptr := p } ∧ j = share) ∨
      w.Live r y j := by
  obtain ⟨-, -, -, hrecords, -⟩ := parts_of_take htake
  have hbind := live_bindTo (w := w1.setHeap h (s.mark p d.key w.records.size)) (o := obj) (y := y)
    (x := { bridge := b, cls := c, share := some share, ptr := p }) (r := r) (j := j)
    (i := share) rfl rfl
  rw [hw']
  unfold Live at hbind ⊢
  rw [show (w1.setHeap h (s.mark p d.key w.records.size)).records = w.records from hrecords] at hbind
  exact hbind

theorem carries_bindOn (hstash : s.stash ≠ p) : w.Carries w' := by
  refine ⟨fun b' br' hb' => bridges_bindOn htake hw' hb', fun k t ht => ?_⟩
  rw [heaps_bindOn htake hs hw']
  split
  case isTrue hk =>
    rw [hk, hs] at ht
    cases ht
    exact ⟨_, rfl, fun b' hb' => hb'.mark hstash⟩
  case isFalse => exact ⟨t, ht, fun _ h => h⟩

omit hs in
theorem ledger_bindOn (hl : w.Ledger) (hfree : w.Free obj) : w'.Ledger := by
  obtain ⟨-, -, -, -, -, hnames, -, -, hshare, -⟩ := parts_of_take htake
  obtain ⟨t, sh, k, ht, hnone, hsh, hobj, hrel, hk, hdk⟩ := hfree.taken hl htake
  have hl1 : (w1.setHeap h (s.mark p d.key w.records.size)).Ledger :=
    (Regime.ledger_issue hl (issues_take htake).2).congr rfl rfl rfl rfl rfl
  rw [hw']
  refine (hl1.bindTo (x := { bridge := b, cls := c, share := some share, ptr := p }) (i := share) ht hnone
    rfl rfl hsh hobj hrel hk hdk fun name hm => ?_).congr rfl rfl rfl rfl rfl
  have hm : (name, share) ∈ w.names.shares := hnames ▸ hm
  have hlt := (hl.named name share hm).1
  rw [hshare] at hlt
  exact absurd hlt (Nat.lt_irrefl _)

theorem linked_bindOn (hi : w.Identity none) (hbr : w.bridges[b]? = some br) (hh : br.heapId = h)
    (hd : w.classes[c]? = some d) (ho : s.object? p = some o) (hunlinked : w.Unlinked h p)
    (hfinalized : o.finalized = false) (hfin : o.finalizer = some q) (hq : s.Finalizes q b)
    {r : RecordId} {y : Record} {j : ShareId} (hy : w'.Live r y j) : w'.Linked none r y := by
  have hclasses : w'.classes = w.classes := by
    obtain ⟨-, -, hclasses, -⟩ := parts_of_take htake
    rw [hw']
    exact hclasses
  rcases (live_bindOn htake hw').mp hy with ⟨rfl, rfl, rfl⟩ | hy
  · obtain ⟨br', hbr', hid⟩ := bridges_bindOn htake hw' hbr
    have hmarked := object?_mark (k := d.key) (r := w.records.size) ho
    refine ⟨br', d, s.mark p d.key w.records.size, hbr', by rw [hclasses]; exact hd, ?_,
      ⟨_, q, hmarked, ?_, ?_, hfin, hq.mark⟩, .inl fun o' ho' => ?_⟩
    · rw [heaps_bindOn htake hs hw', if_pos (hid.trans hh)]
    · exact (KeyMap.get?_put _ _ _ _).trans (if_pos rfl)
    · rw [KeyMap.get?_put, if_neg (hi.key_ne hd).2.1, KeyMap.get?_put, if_pos rfl]
    · cases hmarked.symm.trans ho'
      exact hfinalized
  · obtain ⟨br0, d0, s0, hbr0, hd0, hs0, hwraps, hunstarted⟩ := hi.linked r y j hy
    obtain ⟨br', hbr', hid⟩ := bridges_bindOn htake hw' hbr0
    by_cases hk : br0.heapId = h
    · rw [hk, hs] at hs0
      cases hs0
      have hne : y.ptr ≠ p := hunlinked r y j br0 hy hbr0 hk
      refine ⟨br', d0, s.mark p d.key w.records.size, hbr', by rw [hclasses]; exact hd0, ?_,
        hwraps.mark hne, .inl fun o' ho' => ?_⟩
      · rw [heaps_bindOn htake hs hw', if_pos (hid.trans hk)]
      · exact hunstarted.resolve_right nofun o' ((object?_mark_of_ne hne).symm.trans ho')
    · refine ⟨br', d0, s0, hbr', by rw [hclasses]; exact hd0, ?_, hwraps, hunstarted.imp_right nofun⟩
      rw [heaps_bindOn htake hs hw', hid, if_neg hk]
      exact hs0

theorem carried_bindOn (hi : w.Identity none) (hbr : w.bridges[b]? = some br) (hh : br.heapId = h)
    (ho : s.object? p = some o) {k : HeapId} {t : Heap} {p' : HeapPtr} {o' : Object} {r : RecordId}
    (ht : w'.heaps[k]? = some t) (ho' : t.object? p' = some o')
    (hkey : o'.hidden.get? objectKey = some (.pointer (.record (some r)))) : w'.Carried k p' r := by
  have hsize : w'.records.size = w.records.size + 1 := by
    obtain ⟨-, -, -, hrecords, -⟩ := parts_of_take htake
    rw [hw']
    show (w1.records.push _).size = _
    rw [Array.size_push, hrecords]
  -- A record that was there leads to where it led.
  have hold : w.Carried k p' r → w'.Carried k p' r := by
    rintro ⟨hlt, hlinks⟩
    refine ⟨by rw [hsize]; exact Nat.lt_succ_of_lt hlt, fun y j hy => ?_⟩
    rcases (live_bindOn htake hw').mp hy with ⟨rfl, -, -⟩ | hy
    · exact absurd hlt (Nat.lt_irrefl _)
    · obtain ⟨hp, br0, hbr0, hid0⟩ := hlinks y j hy
      obtain ⟨br', hbr', hid⟩ := bridges_bindOn htake hw' hbr0
      exact ⟨hp, br', hbr', hid.trans hid0⟩
  rw [heaps_bindOn htake hs hw'] at ht
  split at ht
  case isFalse => exact hold (hi.carried k t p' o' r ht ho' hkey)
  case isTrue hk =>
    cases ht
    by_cases hp : p' = p
    · subst hp hk
      cases (object?_mark ho).symm.trans ho'
      rw [KeyMap.get?_put, if_pos rfl] at hkey
      obtain rfl : w.records.size = r := by simpa using hkey
      refine ⟨by rw [hsize]; exact Nat.lt_succ_self _, fun y j hy => ?_⟩
      rcases (live_bindOn htake hw').mp hy with ⟨-, rfl, -⟩ | hy
      · obtain ⟨br', hbr', hid⟩ := bridges_bindOn htake hw' hbr
        exact ⟨rfl, br', hbr', hid.trans hh⟩
      · obtain ⟨hlt, -⟩ := Array.getElem?_eq_some_iff.mp hy.1
        exact absurd hlt (Nat.lt_irrefl _)
    · rw [object?_mark_of_ne hp] at ho'
      exact hold (hi.carried k s p' o' r (by rw [hk]; exact hs) ho' hkey)

theorem lasts_bindOn (hstash : s.stash ≠ p) : w.Lasts w' := by
  obtain ⟨-, -, -, hrecords, -, -, hforced, -, hshare, hsize⟩ := parts_of_take htake
  refine ⟨carries_bindOn htake hs hw' hstash, fun j hj => ⟨?_, fun r y hy => ?_⟩, fun k t ht => ?_, ?_,
    fun r hr => ?_, fun r y j br' hy _ => .inl ((live_bindOn htake hw').mpr (.inr hy))⟩
  · rw [hw']
    show j < w1.shares.size
    rw [hsize]
    exact Nat.lt_succ_of_lt hj.1
  · rcases (live_bindOn htake hw').mp hy with ⟨-, -, rfl⟩ | hy
    · rw [hshare] at hj
      exact absurd hj.1 (Nat.lt_irrefl _)
    · exact hj.2 r y hy
  · rw [heaps_bindOn htake hs hw']
    split
    case isTrue hk =>
      rw [hk, hs] at ht
      cases ht
      refine ⟨_, rfl, fun q hq => hq.imp_right ?_⟩
      rintro ⟨x, hx, hfin⟩
      obtain ⟨x', hx', -, -, hfin', -⟩ := mark_forth (p := p) (k := d.key) (r := w.records.size) hx
      exact ⟨x', hx', hfin'.trans hfin⟩
    case isFalse => exact ⟨t, ht, fun _ h => h⟩
  · rw [hw']
    exact fun h => hforced.trans h
  · obtain ⟨y, hy, hsev⟩ := hr
    refine ⟨y, ?_, hsev⟩
    rw [hw']
    show (w1.records.push _)[r]? = some y
    rw [hrecords]
    exact push_of_some hy

theorem sustains_bindOn (hi : w.Identity none) (hbr : w.bridges[b]? = some br) (hh : br.heapId = h)
    (hd : w.classes[c]? = some d) (ho : s.object? p = some o) (hhidden : o.hidden = {})
    (hfinalized : o.finalized = false) (hfin : o.finalizer = some q) (hq : s.Finalizes q b)
    (hstash : s.stash ≠ p) (hfree : w.Free obj) : Sustains none w w' := by
  have hunlinked : w.Unlinked h p := hi.unlinked hs ho fun r y j _ => by
    rw [hhidden]
    simp [KeyMap.get?]
  have hcarries := carries_bindOn htake hs hw' hstash
  have hparts : w'.classes = w.classes ∧ w'.attached = w.attached ∧ w'.history = w.history := by
    obtain ⟨-, -, hclasses, -, hattached, -, -, hhistory, -⟩ := parts_of_take htake
    rw [hw']
    exact ⟨hclasses, hattached, hhistory⟩
  refine ⟨⟨ledger_bindOn htake hw' hi.ledger hfree, fun r y j hy =>
    linked_bindOn htake hs hw' hi hbr hh hd ho hunlinked hfinalized hfin hq hy, fun k t ht => ?_, ?_,
    fun k b' hm => ?_, fun k t p' o' name arity b' cl ht ho' hbody => ?_, fun k t p' o' r ht ho' hkey =>
    carried_bindOn htake hs hw' hi hbr hh ho ht ho' hkey⟩,
    (lasts_bindOn htake hs hw' hstash).continues hparts.2.2⟩
  · rw [heaps_bindOn htake hs hw'] at ht
    split at ht
    · cases ht
      exact (hi.tidy h s hs).mark hstash
    · exact hi.tidy k t ht
  · rw [hparts.1]
    exact hi.keys
  · rw [hparts.2.1] at hm
    exact hcarries.serviceable (hi.attached k b' hm)
  · rw [heaps_bindOn htake hs hw'] at ht
    split at ht
    · cases ht
      obtain ⟨o0, ho0, hbody0, -⟩ := mark_back ho'
      exact hcarries.serviceable (hi.bound h s p' o0 name arity b' cl hs ho0 (hbody0.symm.trans hbody))
    · exact hcarries.serviceable (hi.bound k t p' o' name arity b' cl ht ho' hbody)

end Bind

end World

end Tether
