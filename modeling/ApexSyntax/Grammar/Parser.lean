-- The parser: a stack of steps over the tokens of a text. Parts are replaced by
-- their steps, and the other steps match, skip and report tokens and build the
-- tree. After a report the parser recovers: it keeps silent until it matches a
-- token again.
import ApexSyntax.Grammar.Declarations
import ApexSyntax.Grammar.Expressions
import ApexSyntax.Grammar.Queries
import ApexSyntax.Grammar.Types
import ApexSyntax.Tree.Builder

namespace ApexSyntax

/-! ## State -/

structure Parser where
  stream : TokenStream
  /-- The number of visible tokens that are read. -/
  position : Nat
  listeners : List Listener
  /-- The number of reports so far, heard or not. -/
  errorCount : Nat
  /-- Nothing was matched since the last report. -/
  recovering : Bool
  tree : Builder

namespace Parser

/-- A parser at the start of a stream, without listeners. -/
def ofStream (stream : TokenStream) : Parser :=
  { stream, position := 0, listeners := [], errorCount := 0, recovering := false,
    tree := Builder.empty }

def addListener (p : Parser) (l : Listener) : Parser := { p with listeners := p.listeners ++ [l] }

def removeListeners (p : Parser) : Parser := { p with listeners := [] }

def lookahead (p : Parser) : Lookahead := ⟨p.stream, p.position⟩

def current (p : Parser) : Token := p.lookahead.current

/-- The position behind the current token. Nothing lies behind the end. -/
def behind (p : Parser) : Nat := if p.current.isEof then p.position else p.position + 1

/-! ## Matching, skipping and reporting -/

/-- Changes the tree. -/
def build (p : Parser) (f : Builder → Builder) : Parser :=
  match p with
  | ⟨stream, position, listeners, errorCount, recovering, tree⟩ =>
    ⟨stream, position, listeners, errorCount, recovering, f tree⟩

/-- Matches the current token. -/
def take (p : Parser) : Parser :=
  let t := p.current
  { p.build (·.add (.token t)) with position := p.behind, recovering := false }

/-- Matches the next `n` tokens. -/
def takeMany (p : Parser) : Nat → Parser
  | 0 => p
  | n + 1 => p.take.takeMany n

/-- Skips the current token. -/
def skip (p : Parser) : Parser :=
  let t := p.current
  { p.build (·.add (.skipped t)) with position := p.behind }

/-- An error at the current token. -/
def errorHere (p : Parser) (message : String) : SyntaxError :=
  { line := p.current.line, column := p.current.column, message }

/-- Reports an error at the current token, unless the parser recovers. Gives the
error back when a listener throws it. -/
def report (p : Parser) (message : String) : Parser × Option SyntaxError :=
  if p.recovering then (p, none)
  else
    let e := p.errorHere message
    ({ p with
        recovering := true
        errorCount := p.errorCount + 1
        listeners := Listener.hearAll e p.listeners },
      if Listener.stopsAt p.listeners then some e else none)

/-! ## Messages -/

def noAlternativeMessage (t : Token) : String := "no viable alternative at input " ++ t.quoted

def mismatchMessage (t : Token) (expected : String) : String :=
  "mismatched input " ++ t.quoted ++ " expecting " ++ expected

def extraneousMessage (t : Token) (expected : String) : String :=
  "extraneous input " ++ t.quoted ++ " expecting " ++ expected

def missingMessage (t : Token) (expected : String) : String :=
  "missing " ++ expected ++ " at " ++ t.quoted

def complaintMessage (t : Token) : Complaint → String
  | .noAlternative => noAlternativeMessage t
  | .mismatch expected => mismatchMessage t expected

/-- The message about an expected token that neither stands here nor next. It is
missing where the grammar can go on without it, and a mismatch elsewhere. -/
def absentMessage (t : Token) (e : Expected) : String :=
  if e.mayBeLeftOutBefore t || t.kind.resumes then missingMessage t e.display
  else mismatchMessage t e.display

/-! ## Steps -/

/-- What a step leads to: more steps, or the error that a listener threw. -/
abbrev Outcome := Except SyntaxError (List Step)

/-- Reports an error and goes on with some steps. -/
def reportThen (p : Parser) (message : String) (steps : List Step) : Parser × Outcome :=
  match p.report message with
  | (p, some e) => (p, .error e)
  | (p, none) => (p, .ok steps)

/-- Matches an expected token, and then goes on with some steps. When it stands
one token ahead, the token before it is reported and skipped. When it does not,
that is reported, and nothing is read. -/
def expect (p : Parser) (e : Expected) (next : List Step) : Parser × Outcome :=
  let t := p.current
  if e.accepts t then (p.take, .ok next)
  else if !t.isEof && e.accepts (p.lookahead.nth 1) then
    p.reportThen (extraneousMessage t e.display) (.skip :: .take 1 :: next)
  else p.reportThen (absentMessage t e) []

/-- Performs one step. -/
def perform (p : Parser) : Step → Parser × Outcome
  | .start r => (p.build (·.start r), .ok [])
  | .wrap mark r => (p.build (·.wrap mark r), .ok [])
  | .finish => (p.build (·.finish), .ok [])
  | .take n => (p.takeMany n, .ok [])
  | .takeIf m => (if p.lookahead.atMark m then p.take else p, .ok [])
  | .skip => (p.skip, .ok [])
  | .progress since => (if p.position = since then p.skip else p, .ok [])
  | .expect e => p.expect e []
  | .expectThen e next => p.expect e [next]
  | .complain c => p.reportThen (complaintMessage p.current c) []
  | .endOfText =>
    if p.current.isEof then (p.take, .ok [])
    else p.reportThen (extraneousMessage p.current Kind.eof.display) [.skipRest, .take 1]
  | .skipRest => if p.current.isEof then (p, .ok []) else (p.skip, .ok [.skipRest])
  | .typ part => (p, .ok (part.expand p.lookahead))
  | .expr part => (p, .ok (part.expand p.lookahead p.tree.mark))
  | .soql part => (p, .ok (part.expand p.lookahead))
  | .stmt part => (p, .ok (part.expand p.lookahead))
  | .decl part => (p, .ok (part.expand p.lookahead))

/-! ## Runs -/

/-- How a run of steps ends. -/
inductive Ending where
  /-- All steps are performed. -/
  | finished
  /-- A listener threw an error. -/
  | thrown (e : SyntaxError)
  /-- The steps that a run was allowed are used up. -/
  | exhausted
  deriving DecidableEq, Repr

/-- Performs at most `fuel` steps from a stack. -/
def runWithin : Nat → List Step → Parser → Parser × Ending
  | _, [], p => (p, .finished)
  | 0, _ :: _, p => (p, .exhausted)
  | fuel + 1, step :: rest, p =>
    match p.perform step with
    | (p, .ok more) => runWithin fuel (more ++ rest) p
    | (p, .error e) => (p, .thrown e)

/-- A number of steps that is enough to read the rest of the tokens. -/
def fuel (p : Parser) : Nat := 1024 * (p.lookahead.left + 1)

end Parser

/-! ## Entries -/

/-- What a text can be parsed as. -/
inductive Entry where
  /-- A class, an interface or an enumeration, and nothing else. -/
  | compilationUnit
  /-- A trigger, and nothing else. -/
  | triggerUnit
  /-- Statements and members up to the end. -/
  | anonymousUnit
  | statement
  | expression
  | literal
  /-- A query without the brackets around it. -/
  | query
  /-- A search without the brackets around it. -/
  | search
  deriving DecidableEq, Repr

/-- The step that an entry starts from. -/
def Entry.step : Entry → Step
  | compilationUnit => .decl .compilationUnit
  | triggerUnit => .decl .triggerUnit
  | anonymousUnit => .decl .anonymousUnit
  | statement => .stmt .statement
  | expression => .expr .expression
  | literal => .expr .literal
  | query => .soql .query
  | search => .soql .search

namespace Parser

/-- Runs an entry from the current position. The tree is built from scratch, and
nothing is left of an earlier recovery. -/
def run (p : Parser) (entry : Entry) : Parser × Ending :=
  runWithin p.fuel [entry.step] { p with tree := Builder.empty, recovering := false }

/-- Parses an entry from the current position: a tree, or the error that a
listener threw. -/
def parse (p : Parser) (entry : Entry) : Parser × Except SyntaxError Tree :=
  match p.run entry with
  | (p, .thrown e) => (p, .error e)
  | (p, _) => ({ p with tree := Builder.empty }, .ok p.tree.root)

end Parser

end ApexSyntax
