import ArithTree.Dialogue

/-! What the arguments of the command ask for. Only the first argument can be an option: a cluster
of option letters after one hyphen, decided by its first letter, or a name after two. Anything else
that starts with a hyphen is a word, and from the first word on everything is one. A leading `--`
only ends the options, so that any word may follow it. -/

namespace ArithTree

inductive Request where
  | help
  | version
  | report (input : String)
  | dialogue
  /-- An option was given a value, and no option takes one. -/
  | misused
  deriving DecidableEq

namespace Request

/-! ### Options -/

def ofLetter? : Char → Option Request
  | 'h' => some help
  | 'V' => some version
  | _ => none

/-- A name with an equals sign after it has a value. -/
def ofName? (name : List Char) : Option Request :=
  let asked? :=
    match String.ofList (name.takeWhile (· != '=')) with
    | "help" => some help
    | "version" => some version
    | _ => none
  asked?.map fun asked => if name.contains '=' then misused else asked

/-- A cluster is an option only if all of its letters are. -/
def ofOption? (argument : String) : Option Request :=
  match argument.toList with
  | '-' :: '-' :: name => ofName? name
  | '-' :: letters => (letters.mapM ofLetter?).bind List.head?
  | _ => none

/-! ### Arguments -/

/-- The words of one expression; without words there is a dialogue. -/
def ofWords : List String → Request
  | [] => dialogue
  | words => report (" ".intercalate words)

def ofArguments : List String → Request
  | [] => dialogue
  | "--" :: words => ofWords words
  | first :: rest => (ofOption? first).getD (ofWords (first :: rest))

/-! ### Output -/

def helpText : String :=
  "exptree builds a binary expression tree from a prefix, postfix or infix expression, "
    ++ "evaluates it, draws it and explains how to compute it\n\n"
    ++ "Usage: exptree [EXPRESSION]...\n\n"
    ++ "Arguments:\n"
    ++ "  [EXPRESSION]...  The expression. Its words are joined with single spaces. "
    ++ "Without an expression, exptree asks for expressions interactively\n\n"
    ++ "Options:\n"
    ++ "  -h, --help     Print help\n"
    ++ "  -V, --version  Print version\n"

/-- What the command prints, given all of its input. -/
def output (bytes : List UInt8) : Request → String
  | help => helpText
  | version => "exptree 0.1.0\n"
  | report input => "\n" ++ Report.text input ++ "\n"
  | dialogue => Dialogue.transcript bytes
  | misused => ""

/-- The exit status. -/
def status : Request → Nat
  | misused => 2
  | help | version | report _ | dialogue => 0

end Request

end ArithTree
