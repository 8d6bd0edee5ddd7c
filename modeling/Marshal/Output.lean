import Marshal.ContentType
import Marshal.Layer

/-!
Writing a model: a payload of any format in the making, the layers around it, and the log that they
keep. An error ends the writing and leaves all of this as it is then.
-/

namespace Marshal

inductive AnyDraft
  | json (d : JsonDraft)
  | text (d : TextDraft)
  | form (d : FormDraft)
  | multipart (d : MultipartDraft)
  | transcript (t : Transcript)

namespace AnyDraft

def contentType : AnyDraft → String
  | json _ => ContentType.json
  | text _ => ContentType.plainText
  | form _ => ContentType.form
  | multipart _ => ContentType.multipart
  | transcript t => t.contentType

/-- Does something to the draft of whatever format, and puts the format back. -/
def lift {α : Type} (f : {σ : Type} → [Draft σ] → σ → Result α × σ) :
    AnyDraft → Result α × AnyDraft
  | json d => (f d).map id json
  | text d => (f d).map id text
  | form d => (f d).map id form
  | multipart d => (f d).map id multipart
  | transcript t => (f t).map id transcript

instance : Draft AnyDraft where
  call c := lift (Draft.call c)
  shadows
    | json d, key => Draft.shadows d key
    | text d, key => Draft.shadows d key
    | form d, key => Draft.shadows d key
    | multipart d, key => Draft.shadows d key
    | transcript t, key => Draft.shadows t key
  finish := lift Draft.finish

end AnyDraft

structure Output where
  draft : AnyDraft
  layers : List Layer := []
  log : Log := []

/-- A step of writing. -/
abbrev WriteM := StateM Output

namespace Output

/-- Works on the draft alone. -/
def onDraft {α : Type} (f : AnyDraft → α × AnyDraft) : WriteM α := fun o =>
  let (a, draft) := f o.draft
  (a, { o with draft })

def call (c : Call) : WriteM (Result Unit) :=
  onDraft (Draft.call c)

def run (s : Script) : WriteM (Result Unit) :=
  onDraft (Draft.run s)

def writeAdditional (data : AdditionalData) : WriteM (Result Unit) :=
  onDraft (Draft.writeAdditional data)

def finish : WriteM (Result Bytes) :=
  onDraft Draft.finish

def addLog (e : Event) : WriteM Unit :=
  modify fun o => { o with log := o.log ++ [e] }

/-- A layer sees a model before or after it is written; what it then sees is what the model is like
afterwards. -/
def observe (phase : Phase) (g : Glance) : Layer → WriteM Glance
  | .changes => return { g with onlyChanged := g.dirty.isSome && phase == .before }
  | .observer o => do
    if (if phase = .before then o.before else o.after) then
      addLog ⟨o.label, phase, g⟩
    return g

def observeAll (phase : Phase) (g : Glance) : WriteM Glance := do
  (← get).layers.foldlM (observe phase) g

/-- What a layer writes of its own into an object that has been opened. -/
def startValue (o : Observer) : WriteM (Result Unit) :=
  if o.writes then call (.string (some ("start_" ++ o.label)) (some "x")) else return .ok ()

/-- What a layer does when an object has been opened. -/
def startLayer (g : Glance) : Layer → WriteM Unit
  | .changes => return
  | .observer o => do
    if o.start then
      match ← startValue o with
      | .ok () => addLog ⟨o.label, .start, g⟩
      | .error _ => addLog ⟨o.label, .startRefused, g⟩

def startAll (g : Glance) : WriteM Unit := do
  (← get).layers.forM (startLayer g)

/-- Writes to another payload with layers of its own, and comes back with what was logged there. -/
def aside {α : Type} (draft : AnyDraft) (layers : List Layer) (act : WriteM α) : WriteM α :=
  fun o =>
    let (a, inner) := act { draft, layers, log := o.log }
    (a, { o with log := inner.log })

end Output

end Marshal
