import Tether.Proofs.Protocol

/-!
# What binding an object to a wrapper leaves

Wrapping tests the token of an object, makes a wrapper, and only then writes the token. The objects
that it makes may start a collection, whose finalizers and destructors run in between.
-/

namespace Tether

open M Regime Bridge Ownership

variable {w1 w w' : World} {b : BridgeId} {c : ClassId} {obj : NativeId} {u : Unit} {d : ClassDecl}

/-! ## The books after binding -/

namespace Bridge

variable {h : HeapId} {i : Int}

theorem reportWrapped_eq_ok {ptr : HeapPtr} (he : (reportWrapped b d ptr).exec w = (.ok u, w')) :
    ∃ log, w' = { w with log } := by
  obtain ⟨br, -, hlog⟩ := look_bind_eq_ok he
  obtain ⟨log, hlog'⟩ := exec_log _ _ _ _ _
  cases hlog'.symm.trans hlog
  exact ⟨log, rfl⟩

theorem bindWrapper_eq_ok (he : (bindWrapper b h obj c i).exec w = (.ok u, w')) :
    ∃ share w1 ptr heaps bridges log, (take obj).exec (w.noteRace obj) = (.ok share, w1) ∧
      w' = { w1.bindTo obj { bridge := b, cls := c, share := some share, ptr } with
        heaps, bridges, log } := by
  obtain ⟨d, -, hrest0⟩ := look_bind_eq_ok he
  obtain ⟨_, _, hnote, hrest0⟩ := bind_ok_iff.mp hrest0
  cases hnote
  obtain ⟨share, w1, htake, hrest1⟩ := bind_ok_iff.mp hrest0
  obtain ⟨ptr, w2, hptr, hrest2⟩ := bind_ok_iff.mp hrest1
  obtain rfl := (reads_readHeap h _).exec hptr
  obtain ⟨x, w3, hget, hrest3⟩ := bind_ok_iff.mp hrest2
  obtain ⟨hx, rfl⟩ := Prod.mk.inj hget
  obtain ⟨_, w4, hrecord, hrest4⟩ := bind_ok_iff.mp hrest3
  cases hrecord
  obtain ⟨_, w5, hput, hrest5⟩ := bind_ok_iff.mp hrest4
  obtain ⟨heaps, rfl⟩ := putRecord_eq_ok hput
  obtain ⟨_, w6, hput', hreport⟩ := bind_ok_iff.mp hrest5
  obtain ⟨heaps', rfl⟩ := putRecord_eq_ok hput'
  obtain ⟨log, rfl⟩ := reportWrapped_eq_ok hreport
  exact ⟨share, _, ptr, heaps', _, log, htake, rfl⟩

end Bridge

namespace World

variable {share : ShareId}

variable {x : Record}

theorem binds_bindTo (hw : w.Sound) (htake : (take obj).exec w = (.ok share, w1))
    (hs : x.severed = false) (hx : x.share = some share) (r : RecordId) :
    (w1.bindTo obj x).Binds r obj ↔ r = w.records.size ∨ w.Binds r obj := by
  obtain ⟨-, -, -, hrecords, -⟩ := parts_of_take htake
  obtain ⟨-, -, c, -, -, -, -, rfl, hshares⟩ := token_of_take htake
  have hold : ∀ r y i, w.Live r y i → w1.shares[i]? = w.shares[i]? := by
    intro r y i hy
    rw [hshares, Array.getElem?_push, if_neg (Nat.ne_of_lt (hw.records r y i hy.1 hy.2.2))]
  have hlive : ∀ {r y i}, w1.Live r y i ↔ w.Live r y i := by
    unfold Live
    rw [hrecords]
  constructor
  · rintro ⟨y, i, sh, hy, hsh, ho⟩
    rcases (live_bindTo hs hx).mp hy with ⟨rfl, -, -⟩ | hy
    · exact .inl (by rw [hrecords])
    · exact .inr ⟨y, i, sh, hlive.mp hy, (hold r y i (hlive.mp hy)).symm.trans hsh, ho⟩
  · rintro (rfl | ⟨y, i, sh, hy, hsh, ho⟩)
    · refine ⟨x, w.shares.size, { object := obj, control := c }, (live_bindTo hs hx).mpr (.inl ⟨?_, rfl, rfl⟩),
        ?_, rfl⟩
      · rw [hrecords]
      · show w1.shares[w.shares.size]? = _
        rw [hshares]
        exact Array.getElem?_push_size
    · exact ⟨y, i, sh, (live_bindTo hs hx).mpr (.inr (hlive.mpr hy)), (hold r y i hy).trans hsh, ho⟩

theorem token_bindTo (htake : (take obj).exec w = (.ok share, w1)) :
    ∃ t, (w1.bindTo obj x).token? obj = some t ∧ t.record = some w.records.size := by
  obtain ⟨-, -, -, hrecords, -⟩ := parts_of_take htake
  obtain ⟨-, t, -, -, ht, -⟩ := token_of_take htake
  refine ⟨{ t with record := some w1.records.size }, ?_, by rw [hrecords]⟩
  rw [token?_bindTo, if_pos rfl, ht]
  rfl

theorem disposed_bindTo (htake : (take obj).exec w = (.ok share, w1)) :
    (w1.bindTo obj x).Disposed obj ↔ w.Disposed obj := by
  rw [← disposed_take htake]
  refine ⟨fun h => h.transfer (fun t ht => ?_) fun _ k hk hd => ⟨k, hk, hd⟩,
    fun h => h.transfer (fun t ht => ?_) fun _ k hk hd => ⟨k, hk, hd⟩⟩
  · obtain ⟨t', ht', he⟩ := token_back (f := Token.control) token?_bindTo (fun _ => by rfl) ht
    exact ⟨t', ht', he.symm⟩
  · exact token_forth token?_bindTo (fun _ => by rfl) ht

structure Books (w w' : World) : Prop where
  natives : w'.natives = w.natives
  controls : w'.controls = w.controls
  shares : w'.shares = w.shares
  records : w'.records = w.records

theorem Books.trans {w2 w3 : World} (h : w1.Books w2) (h' : w2.Books w3) : w1.Books w3 :=
  ⟨h'.natives.trans h.natives, h'.controls.trans h.controls, h'.shares.trans h.shares, h'.records.trans h.records⟩

theorem Books.binds (h : w.Books w') (r : RecordId) (o : NativeId) : w'.Binds r o ↔ w.Binds r o := by
  unfold Binds Live
  rw [h.records, h.shares]

theorem Books.disposed (h : w.Books w') (o : NativeId) : w'.Disposed o ↔ w.Disposed o := by
  unfold Disposed token?
  rw [h.natives, h.controls]

end World

/-! ## Wrapping -/

theorem Bridge.wrap_eq_ok {host : Host} {obj : NativeId} (hfree : w.Free obj)
    (he : (wrap host b obj c).exec w = (.ok u, w')) :
    ∃ d br i w0 w1, w.classes[c]? = some d ∧ w.bridges[b]? = some br ∧ (register b c).exec w = (.ok (), w0) ∧
      (blankWrapper host b br.heapId c).exec w0 = (.ok i, w1) ∧
      (bindWrapper b br.heapId obj c i).exec w1 = (.ok (), w') := by
  obtain ⟨⟨t, ht, hnone⟩, halive⟩ := hfree
  obtain ⟨d, hd, hrest1⟩ := look_bind_eq_ok he
  obtain ⟨br, hbr, hrest2⟩ := look_bind_eq_ok hrest1
  obtain ⟨v, v3, hv, hrest3⟩ := bind_ok_iff.mp hrest2
  obtain rfl := (reads_isDisposed obj).exec hv
  have hv : v = false := by
    cases v with
    | false => rfl
    | true => exact absurd ((isDisposed_eq_ok hv).mp rfl) halive
  subst hv
  obtain ⟨x, hx, hrest4⟩ := look_bind_eq_ok hrest3
  cases (World.token?_of_native hx).symm.trans ht
  simp only [hnone] at hrest4
  obtain ⟨_, w0, hregister, hmake⟩ := bind_ok_iff.mp hrest4
  obtain ⟨i, w1, hblank, hbind⟩ := bind_ok_iff.mp hmake
  exact ⟨d, br, i, w0, w1, hd, hbr, hregister, hblank, hbind⟩

theorem Regime.books_blankWrapper {n : Nat} {h : HeapId} {s : Heap} {i : Int} (hw : w.Sound)
    (hbased : w.Based b h) (hd : w.classes[c]? = some d) (hs : w.heaps[h]? = some s)
    (he : (blankWrapper (hostAt n) b h c).exec w = (.ok i, w1)) (hquiet : (quiet h).passes w1) :
    w.Books w1 := by
  have hcrafts : Crafts (quiet h) n b h False fun v => w.Books v ∧ v.classes[c]? = some d :=
    quiet_crafts n b h False ⟨fun _ hv => ⟨hv.1.trans ⟨rfl, rfl, rfl, rfl⟩, hv.2⟩,
      fun _ _ hv => ⟨hv.1.trans ⟨rfl, rfl, rfl, rfl⟩, hv.2⟩,
      fun _ hv => ⟨hv.1.trans ⟨rfl, rfl, rfl, rfl⟩, hv.2⟩,
      fun _ hv => ⟨hv.1.trans ⟨rfl, rfl, rfl, rfl⟩, hv.2⟩⟩
  have hmeets := hcrafts.meets_blankWrapper (A := noFact) (F := footing s) (fun _ _ => trivial)
    (fun d v t hv _ _ => (plain_putHidden (h := h) (-3) d.key).good hv)
    (fun _ i v t hv _ _ _ => (plain_setFinalizer (h := h) i).good hv)
    (fun _ hv => hv.2) False.elim
  obtain ⟨-, hpost⟩ := hmeets w hw trivial fun hT => over_footing hbased
    ⟨⟨rfl, rfl, rfl, rfl⟩, hd⟩ hs (World.Sound.working hw hs (hT s hs).isOpen (hT s hs).addressable).bottom_le
  obtain ⟨p, o, l, hblank⟩ := hpost i w1 he hquiet
  exact hblank.above.rest.1

/-- **Atomicity of wrapping.** An object is bound to nothing and not destroyed, and wrapping it
succeeds. Let the wrapper be made in the world `w1`; whatever finalizers and destructors did on the
way, they did it before. The token of the object names the new record, which is live beside the records
of the object that were live in `w1`; and the object is destroyed if it was so in `w1`. So wrapping
leaves exactly one live record and an object that is not destroyed if and only if nothing bound or
destroyed the object while the wrapper was made. This is so if the heap does not collect of its own
accord, and if native code kept to the rules of bridges. -/
theorem wrap_atomic_iff {n : Nat} {w w' : World} {b : BridgeId} {obj : NativeId} {c : ClassId}
    (hw : w.Sound) (hfree : w.Free obj) (hunbound : ∀ r, ¬ w.Binds r obj)
    (he : (Bridge.wrap (hostAt n) b obj c).exec w = (.ok (), w')) :
    ∃ (br : Bridge) (i : Int) (w0 w1 : World), w.bridges[b]? = some br ∧ (Bridge.register b c).exec w = (.ok (), w0) ∧
      (Bridge.blankWrapper (hostAt n) b br.heapId c).exec w0 = (.ok i, w1) ∧
      (∃ t, w'.token? obj = some t ∧ t.record = some w1.records.size) ∧
      (∀ r, w'.Binds r obj ↔ r = w1.records.size ∨ w1.Binds r obj) ∧
      (((∃ r, w'.Binds r obj ∧ ∀ r', w'.Binds r' obj → r' = r) ∧ ¬ w'.Disposed obj) ↔
        (∀ r, ¬ w1.Binds r obj) ∧ ¬ w1.Disposed obj) ∧
      ((∀ s, w'.heaps[br.heapId]? = some s → s.Quiet) → (∀ r, ¬ w1.Binds r obj) ∧ ¬ w1.Disposed obj) ∧
      (Identified w → identity.usable b w → w'.Settled → (∀ r, ¬ w1.Binds r obj) ∧ ¬ w1.Disposed obj) := by
  obtain ⟨d, br, i, w0, w1, hd, hbr, hregister, hblank, hbind⟩ := Bridge.wrap_eq_ok hfree he
  have hg0 : plain.Good w w0 := by
    rw [← after_eq hregister]
    exact keeps_register (F := noFact) b c w hw trivial
  have hg1 : plain.Good w0 w1 := by
    rw [← after_eq hblank]
    exact plain_blankWrapper (F := noFact) (plain_serves n) b br.heapId c w0 hg0.1 trivial
  have hbased1 : w1.Based b br.heapId := (Stationed (R := plain) b br.heapId).stable (hg0.trans hg1).2 ⟨br, hbr, rfl⟩
  have hg2 : plain.Good w1 w' := by
    rw [← after_eq hbind]
    exact plain_bindWrapper (R := plain) (F := Stationed b br.heapId) b br.heapId .rfl (fun _ _ => trivial) i w1
      hg1.1 hbased1
  obtain ⟨share, w2, ptr, heaps, bridges, log, htake, hw'⟩ := Bridge.bindWrapper_eq_ok hbind
  have hbooks : (w2.bindTo obj { bridge := b, cls := c, share := some share, ptr }).Books w' := by
    rw [hw']
    exact ⟨rfl, rfl, rfl, rfl⟩
  obtain ⟨t, ht, hrecord⟩ := World.token_bindTo (x := { bridge := b, cls := c, share := some share, ptr }) htake
  have ht' : w'.token? obj = some t := by
    rw [hw']
    exact ht
  have hbinds : ∀ r, w'.Binds r obj ↔ r = w1.records.size ∨ w1.Binds r obj := fun r =>
    (hbooks.binds r obj).trans
      (World.binds_bindTo (w := w1.noteRace obj) ⟨hg1.1.heaps, hg1.1.records⟩ htake rfl rfl r)
  have hdisposed : w'.Disposed obj ↔ w1.Disposed obj :=
    (hbooks.disposed obj).trans (World.disposed_bindTo (w := w1.noteRace obj) htake)
  have hfresh : ∀ r, w1.Binds r obj → r ≠ w1.records.size := by
    rintro r ⟨x, i, sh, hx, -⟩ rfl
    exact absurd hx.1 (by simp)
  have hiff : ((∃ r, w'.Binds r obj ∧ ∀ r', w'.Binds r' obj → r' = r) ∧ ¬ w'.Disposed obj) ↔
      (∀ r, ¬ w1.Binds r obj) ∧ ¬ w1.Disposed obj := by
    rw [hdisposed]
    refine and_congr_left fun _ => ⟨?_, fun hnone => ⟨w1.records.size, (hbinds _).mpr (.inl rfl),
      fun r' hr' => ((hbinds r').mp hr').resolve_right (hnone r')⟩⟩
    rintro ⟨r, -, hunique⟩ r' hr'
    have hnew := hunique _ ((hbinds _).mpr (.inl rfl))
    exact hfresh r' hr' ((hunique r' ((hbinds r').mpr (.inr hr'))).trans hnew.symm)
  refine ⟨br, i, w0, w1, hbr, hregister, hblank, ⟨t, ht', hrecord⟩, hbinds, hiff, fun hquiet => ?_,
    fun hid husable hsettled => hiff.mp ?_⟩
  · -- Nothing ran on the way.
    obtain ⟨bridges0, log0, hw0, hbridges0⟩ := Bridge.register_eq_ok hregister
    have hbooks0 : w.Books w0 := hw0 ▸ ⟨rfl, rfl, rfl, rfl⟩
    have hd0 : w0.classes[c]? = some d := by
      rw [hw0]
      exact hd
    have hbased : w0.Based b br.heapId := by
      obtain ⟨br', hbr', hid⟩ := hbridges0 b br hbr
      exact ⟨br', hw0 ▸ hbr', hid⟩
    obtain ⟨_, _, hread, -⟩ := bind_ok_iff.mp hblank
    obtain ⟨s, hs, -⟩ := exec_readHeap_eq_ok.mp hread
    have hbooks1 := hbooks0.trans (books_blankWrapper hg0.1 hbased hd0 hs hblank
      ((quiet br.heapId).back hg2.2 hquiet))
    exact ⟨fun r hr => hunbound r ((hbooks1.binds r obj).mp hr), fun hd => hfree.2 ((hbooks1.disposed obj).mp hd)⟩
  · -- The invariant of bridges holds at the end.
    have hg : identity.Good w w' := by
      rw [← after_eq he]
      exact identity_wraps n w b obj c hid husable
    have hi := hg.1.2 hsettled
    have hbound := (hi.record_eq_some_iff ht').mp hrecord
    exact ⟨⟨_, hbound⟩, (hi.tethered ht' hrecord).not_disposed ht'⟩

/-- A finalizer that wraps a gadget and keeps the wrapper in the global object. -/
def wrapsGadget : FuncSpec Program :=
  { name := "again", arity := 1, result := 0, throws := none
    body := .ofList [.bridge (.pushNative (some "x")), .stack .pushGlobal, .stack (.swap (-1) (-2)),
        .property (.put (-2) "kept"), .stack .pop] }

/-- The gadget is about to be wrapped. The next object that is made starts a collection, which runs
that finalizer. -/
def aboutToWrap : Script :=
  { heap := { gcThreshold := 5 }, logging := false
    program := .ofList (makesGadget ++ [.stack .pushObject,
        .call (.pushFunc wrapsGadget), .property (.setFinalizer (-2)), .stack .pop]) }

/-- Wrapping the gadget succeeds and leaves two live records: the one of the finalizer, made before the
wrapper was, and the one that the token names. -/
theorem wrap_atomic_iff_aboutToWrap : ∃ w' w1 : World,
    (Bridge.wrap (hostAt 2) 0 0 0).exec (aboutToWrap.world 2 false) = (.ok (), w') ∧
    w1.Binds 0 0 ∧ w'.Binds 0 0 ∧ w'.Binds w1.records.size 0 ∧
    (∃ t, w'.token? 0 = some t ∧ t.record = some w1.records.size) ∧
    ¬ ((∃ r, w'.Binds r 0 ∧ ∀ r', w'.Binds r' 0 → r' = r) ∧ ¬ w'.Disposed 0) := by
  have hstart : (aboutToWrap.world 2 false).token? 0 = some {} ∧ (aboutToWrap.world 2 false).records.size = 0 := by
    decide +kernel
  have hend : (fun r : Except Stop Unit × World => r.1 = .ok () ∧
    (∃ x, r.2.records[0]? = some x ∧ x.severed = false ∧ x.share = some 0) ∧
    (∃ sh, r.2.shares[0]? = some sh ∧ sh.object = 0) ∧ ∃ m, r.2.natives[0]? = some m ∧ m.token.record = some 1)
    ((Bridge.wrap (hostAt 2) 0 0 0).exec (aboutToWrap.world 2 false)) := by decide +kernel
  have hsound := (chronicled_world aboutToWrap 2 false).sound
  generalize aboutToWrap.world 2 false = w at *
  obtain ⟨htoken, hrecords⟩ := hstart
  generalize hexec : (Bridge.wrap (hostAt 2) 0 0 0).exec w = res at *
  obtain ⟨_, w'⟩ := res
  obtain ⟨rfl, ⟨x, hx, hsevered, hheld⟩, ⟨sh, hsh, hobject⟩, m, hm, hmrecord⟩ := hend
  have hfirst : w'.Binds 0 0 := ⟨x, 0, sh, ⟨hx, hsevered, hheld⟩, hsh, hobject⟩
  have hfree : w.Free 0 := by
    refine ⟨⟨{}, htoken, rfl⟩, ?_⟩
    rintro ⟨t, c, k, ht, hc, -⟩
    obtain rfl := Option.some.inj (htoken.symm.trans ht)
    exact absurd hc (by simp)
  have hunbound : ∀ r, ¬ w.Binds r 0 := by
    rintro r ⟨y, i, sh, hy, -⟩
    obtain ⟨hlt, -⟩ := Array.getElem?_eq_some_iff.mp hy.1
    rw [hrecords] at hlt
    exact absurd hlt (Nat.not_lt_zero r)
  obtain ⟨br, i, w0, w1, -, -, hblank, hnew, hbinds, hiff, -, -⟩ :=  wrap_atomic_iff hsound hfree hunbound hexec
  have hsize : w1.records.size ≠ 0 := by
    obtain ⟨t, ht, htrecord⟩ := hnew
    obtain rfl := Option.some.inj ((World.token?_of_native hm).symm.trans ht)
    rw [← Option.some.inj (hmrecord.symm.trans htrecord)]
    decide
  have hbound := ((hbinds 0).mp hfirst).resolve_left hsize.symm
  exact ⟨w', w1, rfl, hbound, hfirst, (hbinds _).mpr (.inl rfl), hnew, fun h => (hiff.mp h).1 0 hbound⟩

end Tether
