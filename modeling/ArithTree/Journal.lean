import ArithTree.Text.Quoted
import ArithTree.Worksheet

/-! The journal of a reading and an evaluation. A reading enters the notation that was detected, the
words as rearranged, and the cause if the text is rejected; an evaluation enters what its pass
reports. -/

namespace ArithTree.Journal

inductive Level where
  | debug
  | warn
  deriving DecidableEq

def Level.name : Level → String
  | debug => "DEBUG"
  | warn => "WARN"

structure Entry where
  level : Level
  message : String
  deriving DecidableEq

/-- How the journal names a notation. -/
def notationName : Notation → String
  | .blank => "Empty"
  | .prefixed => "Prefix"
  | .infixed => "Infix"
  | .postfixed => "Postfix"

def detected (written : Notation) (text : String) : Entry :=
  ⟨.debug, "detected " ++ notationName written ++ " notation for " ++ Text.quoted text⟩

def rearranged (name : String) (words moved : List String) : Entry :=
  ⟨.debug, name ++ " " ++ Text.quotedList words ++ " -> prefix " ++ Text.quotedList moved⟩

def rejected (input : String) (cause : ReadError) : Entry :=
  ⟨.debug, "rejected " ++ Text.quoted input ++ ": " ++ cause.message⟩

/-- The words of a text are entered where they had to be rearranged and could be. -/
def ofWords (written : Notation) (text : String) : List Entry :=
  match written, written.prefixWords text with
  | .infixed, .ok moved => (Lexeme.words text).toOption.toList.map (rearranged "infix" · moved)
  | .postfixed, .ok moved => [rearranged "postfix" (Text.fields text) moved]
  | _, _ => []

/-- What the stages of a reading enter, as far as the reading comes. -/
def ofStages (input : String) : List Entry :=
  match Lexeme.validate input with
  | .error _ => []
  | .ok _ =>
    let text := Text.trim input
    match Notation.detect text with
    | .error _ => []
    | .ok written => detected written text :: ofWords written text

def ofReading (input : String) : List Entry :=
  match Reading.ofText input with
  | .ok _ => ofStages input
  | .error cause => ofStages input ++ [rejected input cause]

/-- An evaluation of a worksheet enters what it finds in the tree, if it comes to look at one. -/
def ofEvaluation (w : Worksheet) : List Entry :=
  if w.valid then
    let found := w.root.elim [] fun root => ((Pass.start true).evaluate root).pass.diagnostics
    found.map fun d => ⟨.warn, d.message⟩
  else []

end ArithTree.Journal
