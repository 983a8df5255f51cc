import Easel.Listing
import Easel.Settings

/-!
# The log

What the program reports on the side while it works: which settings it has found, which tokens mean nothing to it, what
it runs and draws. Which of these events are shown, and how, is up to the log; the program goes on as if there were none.
-/

namespace Easel

/-! ## Reading -/

namespace Draft

/-- Whether a token is the brace that opens or closes a block here. -/
def takesBrace (d : Draft) (t : Token) : Bool :=
  match d.frames with
  | .awaiting _ :: _ => t.isOperator '\x7b'
  | .block .. :: _ => t.isOperator '\x7d'
  | [] => false

/-- The tokens that are skipped while grammatical tokens are read into a draft, up to the first error. -/
def strays (last : Position) (d : Draft) : List Token → List Token
  | [] => []
  | t :: rest =>
    if t.kind = .command then
      match Keyword.ofWord? t.text with
      | none => []
      | some k =>
        match Phrase.read last rest k with
        | .error _ => []
        | .ok phrase => strays last (d.addPhrase phrase) (rest.drop (Phrase.arity k))
    else (if d.takesBrace t then [] else [t]) ++ strays last (d.addOther t) rest
termination_by tokens => tokens.length
decreasing_by all_goals simp only [List.length_drop, List.length_cons]; omega

end Draft

/-- The tokens of a text that are skipped, up to the first error. -/
def Program.strays (source : String) : List Token :=
  let tokens := (tokenize source).filter Token.isGrammatical
  Draft.strays (lastPosition tokens) ⟨[], []⟩ tokens

/-! ## Names -/

def Shape.name : Shape → String
  | .line .. => "line"
  | .rect .. => "rect"
  | .circle .. => "circle"
  | .fillRect .. => "fillrect"
  | .fillCircle .. => "fillcircle"

def Command.name : Command → String
  | .draw (.pen _) => "pen"
  | .draw (.color _) => "color"
  | .draw (.paper _) => "paper"
  | .draw (.shape s) => s.name
  | .set .. => "set"
  | .repeat .. => "repeat"
  | .comment => "comment"

namespace CommandLine

/-! ## Events -/

inductive Severity
  | trace
  | debug
  | info
  | warning
deriving DecidableEq, Repr

inductive Event
  /-- There are no settings, and why. -/
  | noSettings (reason : Settings.LoadError)
  | settings (settings : Settings)
  | stray (token : Token)
  | drawing (commands width height : Nat)
  /-- The name of a command that runs now. -/
  | running (command : String)
  /-- A repeat does not run, since its count is not finite. -/
  | skipping (count : Float)
  | finished (vars : Variables)
  | wroteImage (path : String)

def Event.severity : Event → Severity
  | .running _ => .trace
  | .noSettings _ | .settings _ | .stray _ | .finished _ => .debug
  | .drawing .. | .wroteImage _ => .info
  | .skipping _ => .warning

/-- The path of the settings, from the home directory on. -/
def settingsPath : String := ".dbn/config.yaml"

/-- What the log says of an event, apart from the values that come with it. -/
def Event.message : Event → String
  | .noSettings reason => "no config loaded: " ++ reason.message settingsPath
  | .settings _ => "loaded config"
  | .stray t =>
    "skipping stray " ++ Listing.kindName t.kind ++ " `" ++ t.text ++ "` at " ++ toString t.position.line ++ ":" ++
      toString t.position.column
  | .drawing .. => "drawing"
  | .running _ => "execute"
  | .skipping _ => "repeat count is not finite, skipping body"
  | .finished _ => "run finished"
  | .wroteImage _ => "wrote image"

mutual

/-- The events of a command that runs. -/
def events (c : Command) : List Event :=
  .running c.name ::
    match c with
    | .repeat count body =>
      if count.isFinite then (List.replicate (iterations count) (eventsAll body)).flatten else [.skipping count]
    | _ => []

def eventsAll : List Command → List Event
  | [] => []
  | c :: cs => events c ++ eventsAll cs

end

end CommandLine

end Easel
