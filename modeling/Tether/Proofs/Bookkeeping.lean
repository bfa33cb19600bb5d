import Tether.Proofs.Chronicle

/-!
# Bookkeeping

What control blocks, shares, records and the counters of bridges say agrees at every moment, also inside
native code and finalizers, whatever rules of bridges were broken before.
-/

namespace Tether

variable {j : Nat} {x' : Record} {b : BridgeId} {log : Array LogEntry}

section Arrays

variable {α β : Type} {f : α → β} {xs ys : Array α} {i : Nat}

theorem getElem?_of_map_eq (h : ys.map f = xs.map f) {b : α} (hb : ys[i]? = some b) :
    ∃ a, xs[i]? = some a ∧ f b = f a := by
  have hi : (xs.map f)[i]? = some (f b) := by
    rw [← h, Array.getElem?_map, hb]
    rfl
  rw [Array.getElem?_map] at hi
  obtain ⟨a, ha, he⟩ := Option.map_eq_some_iff.mp hi
  exact ⟨a, ha, he.symm⟩

theorem size_of_map_eq (h : ys.map f = xs.map f) : ys.size = xs.size := by
  simpa using congrArg Array.size h

theorem map_modify_eq {g : α → α} (hg : ∀ a, f (g a) = f a) (xs : Array α) (i : Nat) :
    (xs.modify i g).map f = xs.map f := by
  refine Array.ext_getElem? fun j => ?_
  rw [Array.getElem?_map, Array.getElem?_map, Array.getElem?_modify]
  split
  · rw [Option.map_map]
    exact congrArg (fun g => (xs[j]?).map g) (funext hg)
  · rfl

theorem Retains.size_le (h : Retains f xs ys) : xs.size ≤ ys.size := by
  rcases Nat.eq_zero_or_pos xs.size with hz | hpos
  · exact hz ▸ Nat.zero_le _
  · obtain ⟨_, hlast, -⟩ := h (xs.size - 1) _ (Array.getElem?_eq_getElem (by omega))
    obtain ⟨hlt, -⟩ := Array.getElem?_eq_some_iff.mp hlast
    omega

end Arrays

variable (x : Record)

def Record.book : Record := { x with ptr := .null }

theorem Record.eq_of_book {x : Record} (h : x'.book = x.book) : x'.bridge = x.bridge ∧
    x'.origin = x.origin ∧ x'.share = x.share ∧ x'.severed = x.severed := by
  simp only [book, mk.injEq] at h
  exact ⟨h.1, h.2.2.2.2.2, h.2.2.1, h.2.2.2.2.1⟩

def Record.finalized : Bool := x.share.isNone && !x.severed

/-- A record agrees with the share that it was made with: it holds it, or it has lost it by being
severed or by giving it up. -/
def Record.Agrees (sh : Share) : Prop :=
  x.share = some x.origin ∧ x.severed = false ∧ sh.released = false ∨
    x.share = none ∧ (x.severed = true ∨ sh.released = true)

namespace World

/-! ## The books -/

def Spare (w : World) (i : ShareId) : Prop :=
  i < w.shares.size ∧ ∀ (r : RecordId) x, w.records[r]? = some x → x.origin ≠ i

/-- A severed record that was made with a share of a control block which was never given up. -/
def Abandons (w : World) (r : RecordId) (c : ControlId) : Prop :=
  ∃ x sh, w.records[r]? = some x ∧ x.severed = true ∧
    w.shares[x.origin]? = some sh ∧ sh.control = c ∧ sh.released = false

/-- Control blocks count the shares that were not given up, and records agree with the shares that they
were made with. Unless somebody else wrote them, tokens name live records of their objects. -/
structure Holdings (w : World) : Prop where
  counted : w.Counted
  tokens : ∀ (o : NativeId) n c, w.natives[o]? = some n → n.token.control = some c → c < w.controls.size
  controls : ∀ (i : ShareId) sh, w.shares[i]? = some sh → sh.control < w.controls.size
  records : ∀ (r : RecordId) x, w.records[r]? = some x →
    x.bridge < w.bridges.size ∧ ∃ sh, w.shares[x.origin]? = some sh ∧ x.Agrees sh
  distinct : ∀ (r r' : RecordId) x x', w.records[r]? = some x → w.records[r']? = some x' →
    x.origin = x'.origin → r = r'
  bound : w.breaches.keys = false → ∀ (o : NativeId) n (r : RecordId),
    w.natives[o]? = some n → n.token.record = some r → w.Binds r o
  named : ∀ name (i : ShareId), (name, i) ∈ w.names.shares → w.Spare i

/-- What later books leave of earlier ones: shares stay, new records are made with new shares, and a
share that was abandoned is so for ever. -/
structure Bequeaths (w w' : World) : Prop where
  shares : w.shares.size ≤ w'.shares.size
  fresh : ∀ (r : RecordId) x', w'.records[r]? = some x' →
    (∃ x, w.records[r]? = some x ∧ x'.origin = x.origin) ∨ w.shares.size ≤ x'.origin
  abandoned : ∀ (r : RecordId) c, w.Abandons r c → w'.Abandons r c

/-- What one posting may do to the books: a record stays as it is, or loses its share by being severed or
by giving it up; one record may be made, with a new share. -/
structure Settles (w w' : World) : Prop where
  counted : w'.Counted
  controls : w.controls.size ≤ w'.controls.size
  bridges : w.bridges.size ≤ w'.bridges.size
  tokens : ∀ (o : NativeId) (n' : NativeObject) (c : ControlId), w'.natives[o]? = some n' →
    n'.token.control = some c → c < w'.controls.size ∨
      ∃ (a : NativeId) (n : NativeObject), w.natives[a]? = some n ∧ n.token.control = some c
  shares : Retains Share.object w.shares w'.shares
  issued : ∀ (i : ShareId) (sh' : Share), w'.shares[i]? = some sh' → sh'.control < w'.controls.size ∨
    ∃ sh, w.shares[i]? = some sh ∧ sh'.control = sh.control
  kept : ∀ (r : RecordId) x, w.records[r]? = some x →
    ∃ x', w'.records[r]? = some x' ∧ x'.bridge = x.bridge ∧ x'.origin = x.origin ∧
      ((x'.share = x.share ∧ x'.severed = x.severed) ∧ w'.shares[x.origin]? = w.shares[x.origin]? ∨
        x.severed = false ∧ x'.share = none ∧
          ∃ sh', w'.shares[x.origin]? = some sh' ∧ (x'.severed = true ∨ sh'.released = true))
  made : ∀ (r : RecordId) x', w'.records[r]? = some x' → (∃ x, w.records[r]? = some x) ∨
    r = w.records.size ∧ w.shares.size ≤ x'.origin ∧ x'.bridge < w'.bridges.size ∧
      x'.share = some x'.origin ∧ x'.severed = false ∧
      ∃ sh', w'.shares[x'.origin]? = some sh' ∧ sh'.released = false
  bound : w'.breaches.keys = false → w.breaches.keys = false ∧
    ∀ (o : NativeId) n' (r : RecordId), w'.natives[o]? = some n' →
      n'.token.record = some r → w'.Binds r o ∨ (∃ n, w.natives[o]? = some n ∧ n.token.record = some r) ∧
          ∀ x x', w.records[r]? = some x → w'.records[r]? = some x' → x'.share = x.share ∧ x'.severed = x.severed
  named : ∀ name (i : ShareId), (name, i) ∈ w'.names.shares → (name, i) ∈ w.names.shares ∨ w.Spare i

variable {w w' w1 w2 w3 : World} {i : ShareId} {r : RecordId} {c : ControlId} {o : NativeId} {sh : Share} {x : Record}

theorem Bequeaths.refl (w : World) : w.Bequeaths w := ⟨Nat.le_refl _, fun _ x hx => .inl ⟨x, hx, rfl⟩, fun _ _ => id⟩

theorem Bequeaths.trans (h : w1.Bequeaths w2) (h' : w2.Bequeaths w3) : w1.Bequeaths w3 := by
  refine ⟨Nat.le_trans h.shares h'.shares, fun r x3 hx3 => ?_, fun r c ha => h'.abandoned r c (h.abandoned r c ha)⟩
  rcases h'.fresh r x3 hx3 with ⟨x2, hx2, he⟩ | hnew
  · rw [he]
    exact h.fresh r x2 hx2
  · exact .inr (Nat.le_trans h.shares hnew)

theorem Bequeaths.spare (h : w.Bequeaths w') (hi : w.Spare i) : w'.Spare i := by
  refine ⟨Nat.lt_of_lt_of_le hi.1 h.shares, fun r x' hx' he => ?_⟩
  rcases h.fresh r x' hx' with ⟨x, hx, horigin⟩ | hnew
  · exact hi.2 r x hx (horigin.symm.trans he)
  · exact Nat.not_le.mpr hi.1 (he ▸ hnew)

theorem Holdings.origin_lt (hw : w.Holdings) (hx : w.records[r]? = some x) : x.origin < w.shares.size := by
  obtain ⟨-, sh, hsh, -⟩ := hw.records r x hx
  exact (Array.getElem?_eq_some_iff.mp hsh).1

theorem Holdings.held (hw : w.Holdings) (hx : w.Live r x i) :
    i = x.origin ∧ ∃ sh, w.shares[i]? = some sh ∧ sh.released = false := by
  obtain ⟨hx, -, hi⟩ := hx
  obtain ⟨-, sh, hsh, ⟨hshare, -, hr⟩ | ⟨hnone, -⟩⟩ := hw.records r x hx
  · cases hi.symm.trans hshare
    exact ⟨rfl, sh, hsh, hr⟩
  · cases hnone.symm.trans hi

theorem Settles.bequeaths (h : w.Settles w') : w.Bequeaths w' := by
  refine ⟨h.shares.size_le, fun r x' hx' => ?_, ?_⟩
  · rcases h.made r x' hx' with ⟨x, hx⟩ | ⟨-, hnew, -⟩
    · obtain ⟨x'', hx'', -, horigin, -⟩ := h.kept r x hx
      cases hx'.symm.trans hx''
      exact .inl ⟨x, hx, horigin⟩
    · exact .inr hnew
  · rintro r c ⟨x, sh, hx, hsevered, hsh, hc⟩
    obtain ⟨x', hx', -, horigin, ⟨⟨-, he⟩, hshares⟩ | ⟨hfree, -⟩⟩ := h.kept r x hx
    · exact ⟨x', sh, hx', he.trans hsevered, by rw [horigin, hshares]; exact hsh, hc⟩
    · cases hsevered.symm.trans hfree

theorem Holdings.settle (hw : w.Holdings) (h : w.Settles w') : w'.Holdings := by
  -- A record of the books after a posting, seen from the books before it.
  have hback : ∀ (r : RecordId) x', w'.records[r]? = some x' →
      (∃ x, w.records[r]? = some x ∧ x'.origin = x.origin) ∨ r = w.records.size ∧ w.shares.size ≤ x'.origin := by
    intro r x' hx'
    rcases h.made r x' hx' with ⟨x, hx⟩ | ⟨hr, hnew, -⟩
    · obtain ⟨x'', hx'', -, horigin, -⟩ := h.kept r x hx
      cases hx'.symm.trans hx''
      exact .inl ⟨x, hx, horigin⟩
    · exact .inr ⟨hr, hnew⟩
  refine ⟨h.counted, fun o n' c hn' hc => ?_, fun i sh' hsh' => ?_, fun r x' hx' => ?_,
    fun r r' x x' hx hx' he => ?_, fun hkeys o n' r hn' hr => ?_, fun name i hm => ?_⟩
  · rcases h.tokens o n' c hn' hc with hlt | ⟨a, n, hn, hc⟩
    · exact hlt
    · exact Nat.lt_of_lt_of_le (hw.tokens a n c hn hc) h.controls
  · rcases h.issued i sh' hsh' with hlt | ⟨sh, hsh, he⟩
    · exact hlt
    · rw [he]
      exact Nat.lt_of_lt_of_le (hw.controls i sh hsh) h.controls
  · rcases h.made r x' hx' with ⟨x, hx⟩ | ⟨-, -, hbridge, hshare, hsevered, sh', hsh', hreleased⟩
    · obtain ⟨x'', hx'', hbridge, horigin, hcases⟩ := h.kept r x hx
      cases hx'.symm.trans hx''
      obtain ⟨hlt, sh, hsh, hagrees⟩ := hw.records r x hx
      refine ⟨hbridge ▸ Nat.lt_of_lt_of_le hlt h.bridges, ?_⟩
      rw [horigin]
      rcases hcases with ⟨⟨hshare, hsevered⟩, hshares⟩ | ⟨-, hnone, sh', hsh', hlost⟩
      · refine ⟨sh, hshares.trans hsh, ?_⟩
        unfold Record.Agrees at hagrees ⊢
        rwa [hshare, hsevered, horigin]
      · exact ⟨sh', hsh', .inr ⟨hnone, hlost⟩⟩
    · exact ⟨hbridge, sh', hsh', .inl ⟨hshare, hsevered, hreleased⟩⟩
  · rcases hback r x hx with ⟨y, hy, hyo⟩ | ⟨hr, hnew⟩
    · rcases hback r' x' hx' with ⟨y', hy', hyo'⟩ | ⟨hr', hnew'⟩
      · exact hw.distinct r r' y y' hy hy' (hyo.symm.trans (he.trans hyo'))
      · exact absurd (hw.origin_lt hy) (Nat.not_lt.mpr (hyo ▸ he.symm ▸ hnew'))
    · rcases hback r' x' hx' with ⟨y', hy', hyo'⟩ | ⟨hr', -⟩
      · exact absurd (hw.origin_lt hy') (Nat.not_lt.mpr (hyo' ▸ he ▸ hnew))
      · exact hr.trans hr'.symm
  · obtain ⟨hkeys0, hlinks⟩ := h.bound hkeys
    rcases hlinks o n' r hn' hr with hb | ⟨⟨n, hn, hr⟩, hsame⟩
    · exact hb
    · obtain ⟨x, i, sh, ⟨hx, hsevered, hi⟩, hsh, rfl⟩ := hw.bound hkeys0 o n r hn hr
      obtain ⟨x', hx', -⟩ := h.kept r x hx
      obtain ⟨hshare', hsevered'⟩ := hsame x x' hx hx'
      obtain ⟨sh', hsh', ho⟩ := h.shares i sh hsh
      exact ⟨x', i, sh', ⟨hx', hsevered'.trans hsevered, hshare'.trans hi⟩, hsh', ho⟩
  · exact h.bequeaths.spare ((h.named name i hm).elim (hw.named name i) id)

/-! ## Books that stay as they are -/

/-- Shares, control blocks, records and bridges count as before. -/
structure SameBooks (w w' : World) : Prop where
  shares : w'.shares = w.shares
  controls : w'.controls.map (·.refs) = w.controls.map (·.refs)
  records : w'.records.map Record.book = w.records.map Record.book
  bridges : w'.bridges.map (fun br => (br.heapId, br.stats.tally)) =
    w.bridges.map fun br => (br.heapId, br.stats.tally)
  tokens : ∀ (o : NativeId) (n' : NativeObject) (c : ControlId), w'.natives[o]? = some n' →
    n'.token.control = some c →
    ∃ (a : NativeId) (n : NativeObject), w.natives[a]? = some n ∧ n.token.control = some c
  bound : w'.breaches.keys = false → w.breaches.keys = false ∧ ∀ (o : NativeId) n' r, w'.natives[o]? = some n' →
      n'.token.record = some r → ∃ n, w.natives[o]? = some n ∧ n.token.record = some r
  named : ∀ name i, (name, i) ∈ w'.names.shares → (name, i) ∈ w.names.shares ∨ w.Spare i

theorem SameBooks.record (h : w.SameBooks w') (hx' : w'.records[r]? = some x') :
    ∃ x, w.records[r]? = some x ∧ x'.bridge = x.bridge ∧ x'.origin = x.origin ∧ x'.share = x.share ∧
      x'.severed = x.severed := by
  obtain ⟨x, hx, he⟩ := getElem?_of_map_eq h.records hx'
  exact ⟨x, hx, Record.eq_of_book he⟩

theorem SameBooks.settles (hw : w.Holdings) (h : w.SameBooks w') : w.Settles w' := by
  have hsize := size_of_map_eq h.controls
  refine ⟨fun c k' hk' => ?_, Nat.le_of_eq hsize.symm, Nat.le_of_eq (size_of_map_eq h.bridges).symm,
    fun o n' c hn' hc => .inr (h.tokens o n' c hn' hc), by rw [h.shares]; exact .refl _ _,
    fun i sh hsh => .inr ⟨sh, h.shares ▸ hsh, rfl⟩, fun r x hx => ?_, fun r x' hx' => .inl ?_, fun hkeys => ?_,
    h.named⟩
  · obtain ⟨k, hk, he⟩ := getElem?_of_map_eq h.controls hk'
    rw [he, hw.counted c k hk]
    unfold outstanding
    rw [h.shares]
  · obtain ⟨x', hx', he⟩ := getElem?_of_map_eq h.records.symm hx
    obtain ⟨hbridge, horigin, hsame⟩ := Record.eq_of_book he.symm
    exact ⟨x', hx', hbridge, horigin, .inl ⟨hsame, by rw [h.shares]⟩⟩
  · obtain ⟨x, hx, -⟩ := h.record hx'
    exact ⟨x, hx⟩
  · obtain ⟨hkeys0, hlinks⟩ := h.bound hkeys
    refine ⟨hkeys0, fun o n' r hn' hr => .inr ⟨hlinks o n' r hn' hr, fun x x' hx hx' => ?_⟩⟩
    obtain ⟨y, hy, -, -, hsame⟩ := h.record hx'
    cases hx.symm.trans hy
    exact hsame

theorem sameBooks_of_eq (hshares : w'.shares = w.shares) (hcontrols : w'.controls = w.controls)
    (hrecords : w'.records = w.records) (hnatives : w'.natives = w.natives)
    (hnames : w'.names.shares = w.names.shares) (hbridges : w'.bridges = w.bridges)
    (hkeys : w'.breaches.keys = false → w.breaches.keys = false) : w.SameBooks w' :=
  ⟨hshares, by rw [hcontrols], by rw [hrecords], by rw [hbridges], fun o n c hn hc => ⟨o, n, hnatives ▸ hn, hc⟩,
    fun hk => ⟨hkeys hk, fun _ n _ hn hr => ⟨n, hnatives ▸ hn, hr⟩⟩, fun _ _ hm => .inl (hnames ▸ hm)⟩

theorem SameBooks.refl (w : World) : w.SameBooks w := sameBooks_of_eq rfl rfl rfl rfl rfl rfl id

theorem sameBooks_natives {natives : Array NativeObject}
    (hn : ∀ (o : NativeId) n', natives[o]? = some n' → n'.token = {} ∨
      ∃ n, w.natives[o]? = some n ∧ n'.token.control = n.token.control ∧
        (n'.token.record = none ∨ n'.token.record = n.token.record)) :
    w.SameBooks { w with natives } := by
  refine ⟨rfl, rfl, rfl, rfl, fun o n' c hn' hc => ?_, fun hkeys => ⟨hkeys, fun o n' r hn' hr => ?_⟩, fun _ _ => .inl⟩
  · rcases hn o n' hn' with he | ⟨n, hn, he, -⟩
    · exact absurd (he ▸ hc) nofun
    · exact ⟨o, n, hn, he ▸ hc⟩
  · rcases hn o n' hn' with he | ⟨n, hn, -, he | he⟩
    · exact absurd (he ▸ hr) nofun
    · cases he.symm.trans hr
    · exact ⟨n, hn, he ▸ hr⟩

theorem sameBooks_modifyNative {f : NativeObject → NativeObject} (hf : ∀ n, (f n).token.control = n.token.control ∧
      ((f n).token.record = none ∨ (f n).token.record = n.token.record)) :
    w.SameBooks { w with natives := w.natives.modify o f } :=
  sameBooks_natives fun a n' hn' => .inr <| by
    rcases modify_cases hn' with ⟨-, n, hn, rfl⟩ | ⟨-, hn⟩
    · exact ⟨n, hn, hf n⟩
    · exact ⟨n', hn, rfl, .inr rfl⟩

theorem sameBooks_bridges {f : Bridge → Bridge}
    (hf : ∀ br, (f br).heapId = br.heapId ∧ (f br).stats.tally = br.stats.tally) :
    w.SameBooks { w with bridges := w.bridges.modify b f } :=
  { SameBooks.refl w with bridges := map_modify_eq (fun br => Prod.ext (hf br).1 (hf br).2) _ _ }

/-! ## Postings -/

section Ledger

variable (hrecords : w'.records = w.records) (hbridges : w.bridges.size ≤ w'.bridges.size)
  (hkeys : w'.breaches = w.breaches) (hnames : w'.names.shares = w.names.shares)
  (hnatives : ∀ (a : NativeId) (n' : NativeObject), w'.natives[a]? = some n' →
    ∃ n, w.natives[a]? = some n ∧ n'.token.record = n.token.record)
include hrecords hbridges hkeys hnames hnatives

theorem settles_shares (hcounted : w'.Counted) (hcontrols : w.controls.size ≤ w'.controls.size)
    (htokens : ∀ (a : NativeId) (n' : NativeObject) (c : ControlId), w'.natives[a]? = some n' →
      n'.token.control = some c → c < w'.controls.size ∨
        ∃ (a : NativeId) (n : NativeObject), w.natives[a]? = some n ∧ n.token.control = some c)
    (hshares : Retains Share.object w.shares w'.shares)
    (hissued : ∀ (i : ShareId) (sh' : Share), w'.shares[i]? = some sh' →
      sh'.control < w'.controls.size ∨ ∃ sh, w.shares[i]? = some sh ∧ sh'.control = sh.control)
    (hkept : ∀ (r : RecordId) (x : Record), w.records[r]? = some x →
      w'.shares[x.origin]? = w.shares[x.origin]?) : w.Settles w' := by
  refine ⟨hcounted, hcontrols, hbridges, htokens, hshares, hissued, fun r x hx => ?_,
    fun r x' hx' => .inl ⟨x', hrecords ▸ hx'⟩, fun hk => ⟨hkeys ▸ hk, fun a n' r hn' hr => .inr ?_⟩,
    fun _ _ hm => .inl (hnames ▸ hm)⟩
  · exact ⟨x, by rw [hrecords]; exact hx, rfl, rfl, .inl ⟨⟨rfl, rfl⟩, hkept r x hx⟩⟩
  · obtain ⟨n, hn, he⟩ := hnatives a n' hn'
    refine ⟨⟨n, hn, he ▸ hr⟩, fun x x' hx hx' => ?_⟩
    cases hx.symm.trans (hrecords ▸ hx')
    exact ⟨rfl, rfl⟩

end Ledger

theorem native_withControl {a : NativeId} {n' : NativeObject}
    (hn' : (w.withControl o).natives[a]? = some n') : ∃ n, w.natives[a]? = some n ∧ n'.token.record = n.token.record ∧
      (n'.token.control = some w.controls.size ∨ n'.token.control = n.token.control) := by
  rcases modify_cases hn' with ⟨-, n, hn, rfl⟩ | ⟨-, hn⟩
  · exact ⟨n, hn, rfl, .inl rfl⟩
  · exact ⟨n', hn, rfl, .inr rfl⟩

theorem settles_withControl (hw : w.Holdings) (o : NativeId) : w.Settles (w.withControl o) := by
  have hsize : (w.withControl o).controls.size = w.controls.size + 1 := Array.size_push _
  refine settles_shares rfl (Nat.le_refl _) rfl rfl (fun a n' hn' => ?_) (hw.counted.withControl (outstanding_size hw.controls))
    (by omega) (fun a n' c hn' hc => ?_) (.refl _ _) (fun i sh hsh => .inr ⟨sh, hsh, rfl⟩) fun _ _ _ => rfl
  · obtain ⟨n, hn, hr, -⟩ := native_withControl hn'
    exact ⟨n, hn, hr⟩
  · obtain ⟨n, hn, -, he | he⟩ := native_withControl hn'
    · cases he.symm.trans hc
      exact .inl (hsize ▸ Nat.lt_succ_self _)
    · exact .inr ⟨a, n, hn, he ▸ hc⟩

theorem Holdings.shares_push (hw : w.Holdings) (sh : Share) (r : RecordId) (x : Record)
    (hx : w.records[r]? = some x) : (w.shares.push sh)[x.origin]? = w.shares[x.origin]? := by
  rw [Array.getElem?_push, if_neg (Nat.ne_of_lt (hw.origin_lt hx))]

theorem settles_issue (hw : w.Holdings) (hc : c < w.controls.size) : w.Settles (w.issue o c) := by
  have hsize : (w.issue o c).controls.size = w.controls.size := Array.size_modify ..
  refine settles_shares rfl (Nat.le_refl _) rfl rfl (fun a n hn => ⟨n, hn, rfl⟩) hw.counted.issue
    (Nat.le_of_eq hsize.symm) (fun a n _ hn hc => .inr ⟨a, n, hn, hc⟩) (retains_push _ _ _)
    (fun i sh hsh => ?_) (hw.shares_push _)
  rcases push_cases hsh with hsh | rfl
  · exact .inr ⟨sh, hsh, rfl⟩
  · exact .inl (hsize ▸ hc)

theorem Issues.settles (hi : w.Issues w') (hw : w.Holdings) : w.Settles w' := by
  cases hi with
  | held hn hc => exact settles_issue hw (hw.tokens _ _ _ hn hc)
  | again hx => exact settles_issue hw (hw.controls _ _ hx)
  | @fresh o =>
    -- The control block is new; the posting is looked at as a whole.
    have hw1 := hw.settle (settles_withControl hw o)
    have hsize : ((w.withControl o).issue o w.controls.size).controls.size = w.controls.size + 1 :=
      (Array.size_modify ..).trans (Array.size_push _)
    refine settles_shares rfl (Nat.le_refl _) rfl rfl (fun a n' hn' => ?_) hw1.counted.issue (by omega)
      (fun a n' c hn' hc => ?_) (retains_push _ _ _) (fun i sh hsh => ?_) (hw.shares_push _)
    · obtain ⟨n, hn, hr, -⟩ := native_withControl hn'
      exact ⟨n, hn, hr⟩
    · obtain ⟨n, hn, -, he | he⟩ := native_withControl hn'
      · cases he.symm.trans hc
        exact .inl (hsize ▸ Nat.lt_succ_self _)
      · exact .inr ⟨a, n, hn, he ▸ hc⟩
    · rcases push_cases hsh with hsh | rfl
      · exact .inr ⟨sh, hsh, rfl⟩
      · exact .inl (hsize ▸ Nat.lt_succ_self _)

theorem share_giveUp {j : ShareId} {sh' : Share} {i : ShareId} {c : ControlId}
    (hsh' : (w.giveUp i c).shares[j]? = some sh') :
    ∃ sh, w.shares[j]? = some sh ∧ sh'.control = sh.control := by
  rcases modify_cases hsh' with ⟨-, sh, hsh, rfl⟩ | ⟨-, hsh⟩
  · exact ⟨sh, hsh, rfl⟩
  · exact ⟨sh', hsh, rfl⟩

theorem settles_giveUp (hw : w.Holdings) (hi : w.Spare i) (hsh : w.shares[i]? = some sh)
    (hr : sh.released = false) : w.Settles (w.giveUp i sh.control) :=
  settles_shares rfl (Nat.le_refl _) rfl rfl (fun _ n hn => ⟨n, hn, rfl⟩) (hw.counted.giveUp hsh hr)
    (Nat.le_of_eq (Array.size_modify ..).symm) (fun a n _ hn hc => .inr ⟨a, n, hn, hc⟩)
    (retains_modify _ _ fun _ => rfl) (fun _ _ hsh => .inr (share_giveUp hsh))
    fun r x hx => getElem?_modify_ne (hi.2 r x hx)

theorem Settles.bind (h : w.Settles w1) {cls : ClassId} {ptr : HeapPtr} (hi : i = w.shares.size)
    (hrecords : w1.records = w.records) (hsh : w1.shares[i]? = some sh) (ho : sh.object = o)
    (hr : sh.released = false) (hb : b < w1.bridges.size) :
    w.Settles (w1.bind o { bridge := b, cls, share := some i, ptr }) := by
  let x0 : Record := { bridge := b, cls, share := some i, ptr }
  have hsize : (w1.bind o x0).bridges.size = w1.bridges.size := Array.size_modify ..
  have hpush : ∀ {r : RecordId} {x : Record}, w1.records[r]? = some x →
      (w1.bind o x0).records[r]? = some x := fun hx => push_of_some hx
  have hlt : ∀ {r : RecordId} {x : Record}, w.records[r]? = some x → r ≠ w1.records.size := by
    intro r x hx
    rw [hrecords]
    exact Nat.ne_of_lt (Array.getElem?_eq_some_iff.mp hx).1
  refine ⟨h.counted, h.controls, hsize.symm ▸ h.bridges, fun a n' c hn' hc => ?_, h.shares, h.issued,
    fun r x hx => ?_, fun r x' hx' => ?_, fun hkeys => ⟨(h.bound hkeys).1, fun a n' r hn' hr' => ?_⟩, h.named⟩
  · rcases modify_cases hn' with ⟨-, n, hn, rfl⟩ | ⟨-, hn⟩
    · exact h.tokens a n c hn hc
    · exact h.tokens a n' c hn hc
  · obtain ⟨x', hx', hrest⟩ := h.kept r x hx
    exact ⟨x', hpush hx', hrest⟩
  · have hx' : (w1.records.push x0)[r]? = some x' := hx'
    rw [Array.getElem?_push] at hx'
    split at hx'
    case isTrue hnew =>
      cases hx'
      exact .inr ⟨hrecords ▸ hnew, Nat.le_of_eq hi.symm, hsize.symm ▸ hb, rfl, rfl, sh, hsh, hr⟩
    case isFalse => exact .inl ⟨x', hrecords ▸ hx'⟩
  · rcases modify_cases hn' with ⟨rfl, n, -, rfl⟩ | ⟨-, hn⟩
    · cases hr'
      exact .inl ⟨x0, i, sh, ⟨Array.getElem?_push_size, rfl, rfl⟩, hsh, ho⟩
    · rcases (h.bound hkeys).2 a n' r hn hr' with ⟨x, j, sh', ⟨hx, hlive⟩, hbinds⟩ | ⟨hold, hsame⟩
      · exact .inl ⟨x, j, sh', ⟨hpush hx, hlive⟩, hbinds⟩
      · refine .inr ⟨hold, fun x x' hx hx' => hsame x x' hx ?_⟩
        have hx' : (w1.records.push x0)[r]? = some x' := hx'
        rw [Array.getElem?_push, if_neg (hlt hx)] at hx'
        exact hx'

section Loss

variable {f : Record → Record} (hw : w.Holdings) (hx : w.records[r]? = some x) (hsevered : x.severed = false)
  (hrecords : w'.records = w.records.modify r f)
  (hf : ∀ x : Record, (f x).bridge = x.bridge ∧ (f x).origin = x.origin ∧ (f x).share = none)
include hw hx hsevered hrecords hf

theorem settles_lose (hcounted : w'.Counted) (hcontrols : w'.controls.size = w.controls.size)
    (hbridges : w'.bridges.size = w.bridges.size) (hkeys : w'.breaches = w.breaches)
    (hnames : w'.names.shares = w.names.shares) (hshares : Retains Share.object w.shares w'.shares)
    (hissued : ∀ (j : ShareId) (sh' : Share), w'.shares[j]? = some sh' →
      ∃ sh, w.shares[j]? = some sh ∧ sh'.control = sh.control)
    (hother : ∀ j, j ≠ x.origin → w'.shares[j]? = w.shares[j]?)
    (hlost : ∃ sh', w'.shares[x.origin]? = some sh' ∧ ((f x).severed = true ∨ sh'.released = true))
    (hnatives : ∀ (a : NativeId) n', w'.natives[a]? = some n' →
      ∃ n, w.natives[a]? = some n ∧ n'.token.control = n.token.control ∧
        ∀ r', n'.token.record = some r' → n.token.record = some r' ∧ (w.breaches.keys = false → r' ≠ r)) :
    w.Settles w' := by
  refine ⟨hcounted, Nat.le_of_eq hcontrols.symm, Nat.le_of_eq hbridges.symm, fun a n' c hn' hc => ?_, hshares,
    fun j sh' hsh' => .inr (hissued j sh' hsh'), fun r' y hy => ?_, fun r' y' hy' => ?_,
    fun hk => ⟨hkeys ▸ hk, fun a n' r' hn' hr' => ?_⟩, fun _ _ hm => .inl (hnames ▸ hm)⟩
  · obtain ⟨n, hn, he, -⟩ := hnatives a n' hn'
    exact .inr ⟨a, n, hn, he ▸ hc⟩
  · rw [hrecords, Array.getElem?_modify, hy]
    split
    case isTrue hr =>
      obtain rfl := Option.mem_unique hy (hr ▸ hx)
      exact ⟨f y, rfl, (hf y).1, (hf y).2.1, .inr ⟨hsevered, (hf y).2.2, hlost⟩⟩
    case isFalse hr =>
      refine ⟨y, rfl, rfl, rfl, .inl ⟨⟨rfl, rfl⟩, hother _ fun he => hr ?_⟩⟩
      exact hw.distinct r r' x y hx hy he.symm
  · rw [hrecords] at hy'
    rcases modify_cases hy' with ⟨-, y, hy, -⟩ | ⟨-, hy⟩
    · exact .inl ⟨y, hy⟩
    · exact .inl ⟨y', hy⟩
  · obtain ⟨n, hn, -, hlinks⟩ := hnatives a n' hn'
    obtain ⟨hr, hne⟩ := hlinks r' hr'
    refine .inr ⟨⟨n, hn, hr⟩, fun y y' hy hy' => ?_⟩
    rw [hrecords, getElem?_modify_ne (hne (hkeys ▸ hk))] at hy'
    cases hy.symm.trans hy'
    exact ⟨rfl, rfl⟩

end Loss

theorem settles_sever (hw : w.Holdings) {n : NativeObject} (hn : w.natives[o]? = some n)
    (hr : n.token.record = some r) (hx : w.records[r]? = some x) (hsevered : x.severed = false) :
    w.Settles (w.severing o r x.bridge log) := by
  obtain ⟨-, sh, hsh, -⟩ := hw.records r x hx
  refine settles_lose (f := fun x => { x with severed := true, share := none }) hw hx hsevered rfl
    (fun _ => ⟨rfl, rfl, rfl⟩) hw.counted rfl (Array.size_modify ..) rfl rfl (.refl _ _)
    (fun j sh hj => ⟨sh, hj, rfl⟩) (fun _ _ => rfl) ⟨sh, hsh, .inl rfl⟩ fun a n' hn' => ?_
  rcases modify_cases hn' with ⟨-, m, hm, rfl⟩ | ⟨hne, hm⟩
  · exact ⟨m, hm, rfl, nofun⟩
  · refine ⟨n', hm, rfl, fun r' hr' => ⟨hr', fun hkeys he => hne ?_⟩⟩
    subst he
    exact (hw.bound hkeys a n' r' hm hr').object_unique (hw.bound hkeys o n r' hn hr)

theorem settles_unlink (hw : w.Holdings) (hlive : w.Live r x i) (hsh : w.shares[i]? = some sh)
    (hr : sh.released = false) : w.Settles ((w.unlinking b r sh.object log).giveUp i sh.control) := by
  obtain ⟨rfl, -⟩ := hw.held hlive
  have hcounted : (w.unlinking b r sh.object log).Counted := hw.counted
  refine settles_lose (f := fun x => { x with share := none, ptr := .null }) hw hlive.1 hlive.2.1 rfl
    (fun _ => ⟨rfl, rfl, rfl⟩) (hcounted.giveUp hsh hr)
    (Array.size_modify ..) (Array.size_modify ..) rfl rfl (retains_modify _ _ fun _ => rfl)
    (fun _ _ hj => share_giveUp (w := w.unlinking b r sh.object log) hj)
    (fun j hj => getElem?_modify_ne hj) ⟨{ sh with released := true }, ?_, .inr rfl⟩ fun a n' hn' => ?_
  · exact modify_self hsh
  · have hleave : ∀ m : NativeObject, (m.leave r).token.control = m.token.control ∧
        ∀ r', (m.leave r).token.record = some r' → m.token.record = some r' ∧ r' ≠ r := by
      intro m
      unfold NativeObject.leave
      split
      · exact ⟨rfl, nofun⟩
      case isFalse hne => exact ⟨rfl, fun r' h => ⟨h, fun he => hne (he ▸ h)⟩⟩
    rcases modify_cases hn' with ⟨-, m, hm, rfl⟩ | ⟨hne, hm⟩
    · exact ⟨m, hm, (hleave m).1, fun r' hr' => ((hleave m).2 r' hr').imp_right fun h _ => h⟩
    · refine ⟨n', hm, rfl, fun r' hr' => ⟨hr', fun hkeys he => hne ?_⟩⟩
      subst he
      exact (hw.bound hkeys a n' r' hm hr').object_unique ⟨x, _, sh, hlive, hsh, rfl⟩

/-! ## Counters -/

def tally (w : World) (b : BridgeId) (q : Record → Bool) : Nat := w.records.countP fun x => x.bridge == b && q x

/-- Bridges count the records that were made for them and those that were severed, and if finalizers
found the records of their own bridges only, those that were finalized. -/
def Reckoned (w : World) (faithful : Prop) : Prop :=
  ∀ (b : BridgeId) br, w.bridges[b]? = some br →
    br.stats.wrapped = w.tally b (fun _ => true) ∧ br.stats.severed = w.tally b (·.severed) ∧
    br.stats.live = br.stats.wrapped - br.stats.finalized - br.stats.severed ∧
    (faithful → br.stats.finalized = w.tally b (·.finalized))

variable {b : BridgeId} {q : Record → Bool} {f : Record → Record} {p p' : Prop}

theorem tally_eq (h : w'.records = w.records) : w'.tally b q = w.tally b q := by
  unfold tally
  rw [h]

theorem tally_modify (hx : w.records[r]? = some x) (h : w'.records = w.records.modify r f)
    (hf : (f x).bridge = x.bridge) :
    w'.tally b q + (if x.bridge = b ∧ q x = true then 1 else 0) =
      w.tally b q + if x.bridge = b ∧ q (f x) = true then 1 else 0 := by
  unfold tally
  rw [h]
  have hcount := countP_modify (fun x => x.bridge == b && q x) hx f
  simpa only [hf, Bool.and_eq_true, beq_iff_eq] using hcount

theorem SameBooks.tally (h : w.SameBooks w') (hq : ∀ x, q x = q x.book) : w'.tally b q = w.tally b q := by
  have hmap : ∀ v : World, v.tally b q = (v.records.map Record.book).countP fun x => x.bridge == b && q x := by
    intro v
    rw [Array.countP_map]
    exact congrArg (fun p => v.records.countP p) (funext fun x => congrArg (x.bridge == b && ·) (hq x))
  rw [hmap, hmap, h.records]

theorem Reckoned.same (hw : w.Reckoned p) (h : w.SameBooks w') (hp : p' → p) : w'.Reckoned p' := by
  intro b br' hbr'
  obtain ⟨br, hbr, he⟩ := getElem?_of_map_eq h.bridges hbr'
  simp only [BridgeStats.tally, Prod.mk.injEq] at he
  obtain ⟨-, h1, h2, h3, h4⟩ := he
  have htally : ∀ q : Record → Bool, (∀ x, q x = q x.book) → w'.tally b q = w.tally b q := fun _ => h.tally
  rw [htally _ fun _ => rfl, htally _ fun _ => rfl, htally _ fun _ => rfl, h1, h2, h3, h4]
  exact (hw b br hbr).imp_right fun hrest => hrest.imp_right fun hrest => hrest.imp_right (· ∘ hp)

theorem Reckoned.of_eq (hw : w.Reckoned p) (hrecords : w'.records = w.records)
    (hbridges : w'.bridges = w.bridges) (hp : p' → p) : w'.Reckoned p' := by
  intro b br hbr
  simp only [tally_eq hrecords]
  obtain ⟨h1, h2, h3, h4⟩ := hw b br (hbridges ▸ hbr)
  exact ⟨h1, h2, h3, h4 ∘ hp⟩

theorem Holdings.tally_zero (hw : w.Holdings) (hb : w.bridges.size ≤ b) : w.tally b q = 0 := by
  refine Array.countP_eq_zero.mpr fun x hx h => ?_
  obtain ⟨r, hr, rfl⟩ := Array.mem_iff_getElem.mp hx
  have hlt := (hw.records r _ (Array.getElem?_eq_getElem hr)).1
  rw [beq_iff_eq.mp (Bool.and_eq_true_iff.mp h).1] at hlt
  exact Nat.not_le.mpr hlt hb

theorem Reckoned.newBridge (hw : w.Reckoned p) (hholdings : w.Holdings) {br0 : Bridge}
    (hrecords : w'.records = w.records) (hbridges : w'.bridges = w.bridges.push br0)
    (hzero : br0.stats.tally = (0, 0, 0, 0)) (hp : p' → p) : w'.Reckoned p' := by
  intro b br hbr
  simp only [tally_eq hrecords]
  rw [hbridges, Array.getElem?_push] at hbr
  split at hbr
  case isTrue hb =>
    cases hbr
    simp only [BridgeStats.tally, Prod.mk.injEq] at hzero
    obtain ⟨h1, h2, h3, h4⟩ := hzero
    simp [hholdings.tally_zero (Nat.le_of_eq hb.symm), h1, h2, h3, h4]
  case isFalse =>
    obtain ⟨h1, h2, h3, h4⟩ := hw b br hbr
    exact ⟨h1, h2, h3, h4 ∘ hp⟩

theorem Reckoned.bind (hw : w.Reckoned p) (hsevered : x.severed = false) (hshare : x.share = some i) :
    (w.bind o x).Reckoned p := by
  intro b br' hbr'
  have hcount : ∀ q : Record → Bool, (w.bind o x).tally b q =
      w.tally b q + if x.bridge = b ∧ q x = true then 1 else 0 := by
    intro q
    refine (Array.countP_push ..).trans ?_
    simp only [Bool.and_eq_true, beq_iff_eq]
    rfl
  rw [hcount, hcount, hcount]
  simp only [Record.finalized, hsevered, hshare, Option.isNone_some, Bool.false_and, Bool.false_eq_true,
    and_true, and_false, if_false, Nat.add_zero]
  rcases modify_cases hbr' with ⟨rfl, br, hbr, rfl⟩ | ⟨hne, hbr⟩
  · obtain ⟨h1, h2, h3, h4⟩ := hw _ br hbr
    refine ⟨?_, h2, ?_, h4⟩
    · rw [if_pos rfl]
      exact congrArg (· + 1) h1
    · simp only [Bridge.countWrapped]
      omega
  · rw [if_neg fun he => hne he.symm]
    exact hw _ br' hbr

theorem Reckoned.sever (hw : w.Reckoned p) (hx : w.records[r]? = some x) (hsevered : x.severed = false)
    (hlive : p → x.share.isSome = true) : (w.severing o r x.bridge log).Reckoned p := by
  intro b br' hbr'
  have hrecords : (w.severing o r x.bridge log).records =
      w.records.modify r fun x => { x with severed := true, share := none } := rfl
  have hcount := fun q : Record → Bool => tally_modify (b := b) (q := q) hx hrecords rfl
  have hwrapped := Nat.add_right_cancel (hcount fun _ => true)
  have hsev := hcount (·.severed)
  have hfin := hcount (·.finalized)
  simp only [hsevered, Bool.false_eq_true, and_false, and_true, if_false, Nat.add_zero] at hsev
  simp only [Record.finalized, hsevered, Bool.not_true, Bool.and_false, Bool.not_false, Bool.and_true,
    Bool.false_eq_true, and_false, if_false, Nat.add_zero] at hfin
  have hsame : p → (w.severing o r x.bridge log).tally b (·.finalized) = w.tally b (·.finalized) := by
    intro hp
    rw [if_neg fun h => by simpa [Option.isNone_iff_eq_none.mp h.2] using hlive hp] at hfin
    exact hfin
  rw [hwrapped, hsev]
  rcases modify_cases hbr' with ⟨rfl, br, hbr, rfl⟩ | ⟨hne, hbr⟩
  · obtain ⟨h1, h2, h3, h4⟩ := hw _ br hbr
    refine ⟨h1, ?_, ?_, fun hp => (h4 hp).trans (hsame hp).symm⟩
    · rw [if_pos rfl]
      exact congrArg (· + 1) h2
    · simp only [Bridge.countSevered]
      omega
  · obtain ⟨h1, h2, h3, h4⟩ := hw _ br' hbr
    rw [if_neg fun he => hne he.symm]
    exact ⟨h1, h2, h3, fun hp => (h4 hp).trans (hsame hp).symm⟩

theorem Reckoned.unlink (hw : w.Reckoned p) (hlive : w.Live r x i) (hb : p → x.bridge = b) :
    (w.unlinking b r o log).Reckoned p := by
  intro b' br' hbr'
  have hrecords : (w.unlinking b r o log).records =
      w.records.modify r fun x => { x with share := none, ptr := .null } := rfl
  have hcount := fun q : Record → Bool => tally_modify (b := b') (q := q) hlive.1 hrecords rfl
  have hwrapped := Nat.add_right_cancel (hcount fun _ => true)
  have hsev := Nat.add_right_cancel (hcount (·.severed))
  have hfin := hcount (·.finalized)
  simp only [Record.finalized, hlive.2.1, hlive.2.2, Option.isNone_some, Option.isNone_none, Bool.not_false,
    Bool.and_true, Bool.false_eq_true, and_false, and_true, if_false, Nat.add_zero] at hfin
  rw [hwrapped, hsev]
  rcases modify_cases hbr' with ⟨rfl, br, hbr, rfl⟩ | ⟨hne, hbr⟩
  · obtain ⟨h1, h2, h3, h4⟩ := hw _ br hbr
    refine ⟨h1, h2, ?_, fun hp => ?_⟩
    · simp only [Bridge.countFinalized]
      omega
    · rw [if_pos (hb hp)] at hfin
      exact (congrArg (· + 1) (h4 hp)).trans hfin.symm
  · obtain ⟨h1, h2, h3, h4⟩ := hw _ br' hbr
    refine ⟨h1, h2, h3, fun hp => ?_⟩
    rw [if_neg fun he => hne (he.symm.trans (hb hp))] at hfin
    exact (h4 hp).trans hfin.symm

end World

end Tether
