import Tether.Session.Inspector

/-!
# The states of the inspector

Messages come to the inspector in any order: keys, results of calls that were issued earlier, statistics.
-/

namespace Tether

namespace Inspector

variable {m m' : Inspector} {entries : List Entry} {e : Entry} {s : Session}

/-- The inspector after messages, whatever becomes of the commands that they issue. -/
def after (entries : List Entry) (m : Inspector) (messages : List Message) : Option Inspector :=
  messages.foldlM (fun m x => (m.update entries x).map Prod.fst) m

/-- The fields are those of an entry that has parameters, and one of them has the focus. -/
structure Fills (m : Inspector) (e : Entry) : Prop where
  nonempty : m.inputs ≠ []
  length : m.inputs.length = e.params.length
  focus : m.focus < m.inputs.length
  focused : ∀ i f, m.inputs[i]? = some f → (f.focused = true ↔ i = m.focus)

/-- The selection is an entry, and the form is its. -/
structure Sound (m : Inspector) (entries : List Entry) : Prop where
  selected : m.selected < entries.length
  input : m.screen = .input → ∃ e, entries[m.selected]? = some e ∧ m.Fills e

/-! ## Fields -/

theorem focused_press (f : InputField) (k : Key) : (f.press k).focused = f.focused := by
  unfold InputField.press
  split
  · rfl
  · split <;> rfl

theorem fills_prepare (m : Inspector) (he : (m.prepare e).inputs ≠ []) : (m.prepare e).Fills e := by
  have hlength : (m.prepare e).inputs.length = e.params.length := by simp [prepare, fieldsOf]
  refine ⟨he, hlength, List.length_pos_iff.mpr he, fun i f hf => ?_⟩
  have hf : (fieldsOf e)[i]? = some f := hf
  simp only [fieldsOf, List.getElem?_map, List.getElem?_zipIdx, Option.map_map, Option.map_eq_some_iff] at hf
  obtain ⟨p, -, rfl⟩ := hf
  simp [prepare]

theorem Fills.type (h : m.Fills e) (k : Key) : (m.type k).Fills e := by
  unfold Inspector.type
  split
  · refine ⟨by simpa using h.nonempty, by simpa using h.length, by simpa using h.focus, fun i f hf => ?_⟩
    obtain ⟨g, hg, rfl⟩ := Option.map_eq_some_iff.mp ((List.getElem?_map ..).symm.trans hf)
    rw [focused_press]
    exact h.focused i g hg
  · exact h

theorem Fills.focusOn (h : m.Fills e) {i : Nat} (hi : i < m.inputs.length) :
    ∃ m', m.focusOn i = some m' ∧ m'.selected = m.selected ∧ m'.screen = m.screen ∧ m'.Fills e := by
  obtain ⟨old, hold⟩ : ∃ f, m.inputs[m.focus]? = some f := ⟨_, List.getElem?_eq_getElem h.focus⟩
  let blurred := m.inputs.set m.focus { old with focused := false }
  obtain ⟨new, hnew⟩ : ∃ f, blurred[i]? = some f :=
    ⟨_, List.getElem?_eq_getElem (by simpa [blurred] using hi)⟩
  refine ⟨{ m with focus := i, inputs := blurred.set i { new with focused := true } }, ?_, rfl, rfl, ?_⟩
  · simp [Inspector.focusOn, hold, blurred, hnew]
  have hlength : (blurred.set i { new with focused := true }).length = m.inputs.length := by simp [blurred]
  refine ⟨fun he => ?_, hlength.trans h.length, by rw [hlength]; exact hi, fun j f hf => ?_⟩
  · have hzero := congrArg List.length he
    rw [hlength] at hzero
    exact h.nonempty (List.length_eq_zero_iff.mp hzero)
  · have hf : (blurred.set i { new with focused := true })[j]? = some f := hf
    have hold := h.focused
    grind

/-! ## Messages -/

theorem Sound.congr (h : m.Sound entries) (hselected : m'.selected = m.selected)
    (hinput : m'.screen = .input → m.screen = .input ∧ m'.inputs = m.inputs ∧ m'.focus = m.focus) :
    m'.Sound entries := by
  refine ⟨hselected ▸ h.selected, fun hscreen => ?_⟩
  obtain ⟨hscreen, hinputs, hfocus⟩ := hinput hscreen
  obtain ⟨e, he, hfills⟩ := h.input hscreen
  refine ⟨e, hselected ▸ he, ?_⟩
  obtain ⟨hnonempty, hlength, hlt, hfocused⟩ := hfills
  exact ⟨hinputs ▸ hnonempty, hinputs ▸ hlength, hinputs ▸ hfocus ▸ hlt, hinputs ▸ hfocus ▸ hfocused⟩

theorem Sound.type (h : m.Sound entries) (k : Key) : (m.type k).Sound entries := by
  have hselected : (m.type k).selected = m.selected := by unfold Inspector.type; split <;> rfl
  have hscreen : (m.type k).screen = m.screen := by unfold Inspector.type; split <;> rfl
  refine ⟨hselected ▸ h.selected, fun hinput => ?_⟩
  obtain ⟨e, he, hfills⟩ := h.input (hscreen ▸ hinput)
  exact ⟨e, hselected ▸ he, hfills.type k⟩

theorem Sound.moveUp (h : m.Sound entries) : m.moveUp.Sound entries := by
  unfold Inspector.moveUp
  split
  · next hselect => exact ⟨Nat.lt_of_le_of_lt (Nat.sub_le _ _) h.selected, fun hi => by simp_all⟩
  · exact h

theorem Sound.moveDown (h : m.Sound entries) : (m.moveDown entries).Sound entries := by
  unfold Inspector.moveDown
  split
  · next hdown => exact ⟨hdown.2, fun hi => by simp_all⟩
  · exact h

theorem Sound.goBack (h : m.Sound entries) : m.goBack.Sound entries := by
  unfold Inspector.goBack
  split
  · exact h
  · exact h.congr rfl nofun
  · exact h.congr rfl nofun

theorem Sound.confirm (h : m.Sound entries) : ∃ r, m.confirm entries = some r ∧ r.1.Sound entries := by
  unfold Inspector.confirm
  split
  · next hselect =>
    have he := List.getElem?_eq_getElem h.selected
    refine ⟨_, by rw [he]; rfl, ?_⟩
    split
    · exact h.congr rfl fun hi => absurd (hselect.symm.trans hi) nofun
    · next hnonempty =>
      obtain ⟨hne, hlength, hfocus, hfocused⟩ := fills_prepare m (by simpa using hnonempty)
      exact ⟨h.selected, fun _ => ⟨_, he, hne, hlength, hfocus, hfocused⟩⟩
  · exact ⟨_, rfl, h⟩
  · exact ⟨_, rfl, h.congr rfl nofun⟩

theorem Sound.nextField (h : m.Sound entries) : ∃ m', m.nextField = some m' ∧ m'.Sound entries := by
  unfold Inspector.nextField
  split
  · next htwo =>
    obtain ⟨e, he, hfills⟩ := h.input htwo.1
    have hnext := Nat.mod_lt (m.focus + 1) (Nat.lt_trans Nat.zero_lt_one htwo.2)
    obtain ⟨m', hm', hselected, -, hfills'⟩ := hfills.focusOn hnext
    exact ⟨m', hm', hselected ▸ h.selected, fun _ => ⟨e, hselected ▸ he, hfills'⟩⟩
  · exact ⟨m, rfl, h⟩

theorem Sound.handleKey (h : m.Sound entries) (k : Key) :
    ∃ r, m.handleKey entries k = some r ∧ r.1.Sound entries := by
  cases k with
  | up => exact ⟨_, rfl, h.moveUp⟩
  | down => exact ⟨_, rfl, h.moveDown⟩
  | enter => exact h.confirm
  | escape => exact ⟨_, rfl, h.goBack⟩
  | tab =>
    obtain ⟨m', hm', hsound⟩ := h.nextField
    exact ⟨(m', none), by simp [Inspector.handleKey, hm'], hsound⟩
  | text s =>
    refine ⟨_, rfl, ?_⟩
    unfold shortcut
    split
    case h_3 => exact h.moveUp
    case h_4 => exact h.moveDown
    all_goals exact h
  | _ => exact ⟨_, rfl, h⟩

theorem Sound.update (h : m.Sound entries) (x : Message) : ∃ r, m.update entries x = some r ∧ r.1.Sound entries := by
  cases x with
  | key k =>
    obtain ⟨⟨m', c⟩, hm', hsound⟩ := h.handleKey k
    refine ⟨_, by rw [Inspector.update, hm']; rfl, ?_⟩
    cases c with
    | none => exact hsound.type k
    | some c => exact hsound
  | called r => cases r <;> exact ⟨_, rfl, h.congr rfl nofun⟩
  | sampled r => cases r <;> exact ⟨_, rfl, h.congr rfl fun hi => ⟨hi, rfl, rfl⟩⟩

theorem Sound.after (h : m.Sound entries) (messages : List Message) :
    ∃ m', m.after entries messages = some m' ∧ m'.Sound entries := by
  induction messages generalizing m with
  | nil => exact ⟨m, rfl, h⟩
  | cons x rest ih =>
    obtain ⟨r, hr, hsound⟩ := h.update x
    obtain ⟨m', hm', hsound'⟩ := ih hsound
    refine ⟨m', ?_, hsound'⟩
    show ((m.update entries x).map Prod.fst >>= fun m => m.after entries rest) = _
    rw [hr]
    exact hm'

/-! ## The screen -/

theorem isSome_mapM {α β : Type} {f : α → Option β} : ∀ {l : List α}, (∀ a ∈ l, (f a).isSome = true) →
    (l.mapM f).isSome = true
  | [], _ => rfl
  | a :: l, h => by
    obtain ⟨ha, hl⟩ := List.forall_mem_cons.mp h
    obtain ⟨b, hb⟩ := Option.isSome_iff_exists.mp ha
    obtain ⟨bs, hbs⟩ := Option.isSome_iff_exists.mp (isSome_mapM hl)
    simp [hb, hbs]

theorem Fills.form (h : m.Fills e) : (m.form e).isSome = true := by
  refine isSome_mapM fun (f, i) hf => ?_
  obtain ⟨-, hi, -⟩ := List.mem_zipIdx hf
  have hlength := h.length
  rw [Option.isSome_map, List.getElem?_eq_getElem (by omega)]
  rfl

theorem Sound.view (h : m.Sound s.entries) : (m.view s).isSome = true := by
  have hbody : (m.body s.entries).isSome = true := by
    unfold body
    split
    · rfl
    · next hinput =>
      obtain ⟨e, he, hfills⟩ := h.input hinput
      obtain ⟨lines, hlines⟩ := Option.isSome_iff_exists.mp hfills.form
      simp [he, hlines]
    · rfl
  obtain ⟨text, htext⟩ := Option.isSome_iff_exists.mp hbody
  unfold Inspector.view
  split
  · rfl
  · rfl
  · simp [htext]

theorem quits_iff (m : Inspector) (entries : List Entry) :
    m.update entries (.key (.text "q")) = some (m, some .quit) ↔ m.screen ≠ .input := by
  cases hscreen : m.screen <;> simp [Inspector.update, Inspector.handleKey, shortcut, hscreen]

end Inspector

/-- Whatever messages come, no index of the inspector leads nowhere, and the fields on the screen are
those of the selected entry, with the focus on exactly one. -/
theorem inspector_in_range (s : Session) (hs : s.entries ≠ []) (messages : List Message) :
    ∃ m, Inspector.after s.entries {} messages = some m ∧ m.Sound s.entries ∧ (m.view s).isSome = true ∧
      (m.update s.entries (.key (.text "q")) = some (m, some .quit) ↔ m.screen ≠ .input) := by
  have hstart : Inspector.Sound {} s.entries := ⟨List.length_pos_iff.mpr hs, nofun⟩
  obtain ⟨m, hm, hsound⟩ := hstart.after messages
  exact ⟨m, hm, hsound, hsound.view, m.quits_iff s.entries⟩

/-- A session with one entry that takes nothing, and one that takes two numbers. -/
def formSession : Session where
  world := {}
  heap := 0
  bridge := 0
  description := ⟨"plane", [], [], [], []⟩
  entries := [⟨"clear", "clear", "clear()", [], .function⟩,
    ⟨"move", "move", "move(x: f64, y: f64)", [("x", .prim .f64), ("y", .prim .f64)], .function⟩]

theorem inspector_in_range_form : ∃ m, formSession.entries ≠ [] ∧
    Inspector.after formSession.entries {} [.key .down, .key .enter, .key .tab, .key (.text "1")] = some m ∧
    m.Sound formSession.entries ∧ (m.view formSession).isSome = true ∧
    (m.update formSession.entries (.key (.text "q")) = some (m, some .quit) ↔ m.screen ≠ .input) := by
  obtain ⟨m, hm⟩ := inspector_in_range formSession nofun [.key .down, .key .enter, .key .tab, .key (.text "1")]
  exact ⟨m, nofun, hm⟩

end Tether
