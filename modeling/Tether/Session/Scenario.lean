import Tether.Session.Basic

/-!
# What sessions print
-/

namespace Tether

/-! ## Descriptions -/

def line (s : String) : String := s ++ "\n"

def ClassDescription.text (c : ClassDescription) : String :=
  line ("  " ++ c.name ++ " (" ++ c.type ++ ")") ++
    ((c.constructor.map fun f => line ("    new " ++ f.signature)).getD "") ++
    String.join (c.methods.map fun f => line ("    ." ++ f.signature))

def enumText (name : String) (cases : List String) : String :=
  let numbered := cases.zipIdx.map fun (c, i) => c ++ "=" ++ toString i
  line ("  " ++ name ++ " \x7b " ++ ", ".intercalate numbered ++ " \x7d")

def recordText (name type : String) (fields : List String) : String :=
  line ("  " ++ name ++ " \x7b " ++ ", ".intercalate fields ++ " \x7d (" ++ type ++ ")")

def Description.text (d : Description) : String :=
  line ("Module: " ++ d.name) ++
    "\nFunctions:\n" ++ String.join (d.functions.map fun f => line ("  " ++ f.signature)) ++
    "\nClasses:\n" ++ String.join (d.classes.map ClassDescription.text) ++
    "\nEnums:\n" ++ String.join (d.enums.map fun (name, cases) => enumText name cases) ++
    "\nRecords:\n" ++ String.join (d.records.map fun (name, type, fields) => recordText name type fields)

/-! ## The scenario -/

/-- A run of several parts: the session, what was printed so far, and why it stopped. -/
structure Transcript where
  session : Session
  output : String := ""
  stop : Option Stop := none

def Stop.headed (heading : String) : Stop → Stop
  | .fault f => .fault (.head heading (some f))
  | s => s

variable (t : Transcript)

/-- The run with one more part, unless it has stopped; the heading goes before the fault of the
part. -/
def Transcript.andThen (heading : String) (part : Session → Except Stop String × Session) : Transcript :=
  match t.stop with
  | some _ => t
  | none =>
    match part t.session with
    | (.ok text, session) => { session, output := t.output ++ text }
    | (.error e, session) => { t with session, stop := some (e.headed heading) }

structure ScenarioCall where
  label : String
  args : List String

def scenarioCalls (widgets : Nat) : List ScenarioCall :=
  (List.range widgets).flatMap (fun i =>
    [⟨"new Widget", [toString (i + 1) ++ ".0"]⟩, ⟨"Widget.animate", ["2.0", "true"]⟩]) ++
  [⟨"placeWidget", ["global", "1,2,3"]⟩, ⟨"largest", []⟩, ⟨"fill", ["0,0,0,0,0,0,0,0", "7"]⟩,
    ⟨"checksum", ["1,2,3,250"]⟩]

def Transcript.andCall (c : ScenarioCall) : Transcript :=
  match t.session.entry? c.label with
  | none =>
    { t with stop := t.stop.or (some (.fault (.plain ("no binding " ++ Text.quote c.label)))) }
  | some e =>
    t.andThen ("call " ++ c.label) fun s =>
      let (r, s) := s.call e c.args
      (r.map fun text => line (c.label ++ "(" ++ "; ".intercalate c.args ++ ") = " ++ text), s)

def Placement.text (p : Placement) : String :=
  line s!"placed in {Geometry.spaceName p.space} at ({p.x.text}, {p.y.text}, {p.z.text})"

def CollectStats.text (c : CollectStats) (duration : String) : String :=
  s!"collected: {c.finalized} finalized, {c.swept} swept, {c.live} live in {duration}"

/-- Makes and animates widgets, places one, passes buffers through, and drops the widgets. -/
def Session.exercise (s : Session) (widgets : Int) : Transcript :=
  let calls := (scenarioCalls widgets.toNat).foldl Transcript.andCall { session := s }
  let placed := calls.andThen "" fun s =>
    (.ok (String.join (s.world.scene.placements.map Placement.text)), s)
  placed.andThen "drop widgets" fun s =>
    let (r, s) := s.dropWidgets
    (r.map fun _ => "", s)

/-- Collects and prints the counters; how long collecting takes is given as text. -/
def Transcript.finish (backend duration : String) : Transcript :=
  let collected := t.andThen "collect" fun s =>
    let (r, s) := s.collect
    (r.map fun c => line (c.text duration), s)
  collected.andThen "stats" fun s =>
    let (r, s) := s.snapshot
    (r.map fun n => line (n.text backend), s)

def Session.scenario (s : Session) (widgets : Int) (backend duration : String) : Transcript :=
  (s.exercise widgets).finish backend duration

/-! ## The tool -/

variable (settings : Settings)

def openTool : Except Stop Session :=
  match settings.log.check with
  | .error f => .error (.fault (.head "logger" (some f)))
  | .ok () => (Session.start settings false).mapError (Stop.headed "create session")

def runTool (widgets : Int) (describe : Bool) (duration : String) : String × Option Stop :=
  match openTool settings with
  | .error e => ("", some e)
  | .ok s =>
    if describe then (s.description.text, none)
    else
      let t := s.scenario widgets settings.buffers.backend duration
      (t.output, t.stop)

end Tether
