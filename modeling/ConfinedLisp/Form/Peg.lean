import ConfinedLisp.Form.Reading

/-!
# The grammar as parsing expressions

The grammar of source text, given by rules whose bodies are parsing expressions: sequences, ordered
choices, greedy repetitions and lookaheads over characters. `Peg.run` matches an expression at the
front of a text. Outside of tokens, blanks and comments are skipped between the parts of a sequence.
A rule that is matched leaves a `Pair`, and the forms are built from the pairs of a whole text by
`Peg.Pair.build`. Where the text does not match, the error names the rules that were tried in vain at
the furthest position.

`Form.read` reads a text character by character instead, and is what the language uses. The two give
the same forms and the same errors (`Peg.read_eq`).
-/

namespace ConfinedLisp

namespace Peg

/-- The rules, in the order in which errors list them. -/
inductive Rule where
  | endOfInput
  | program
  | form
  | quote
  | list
  | atom
  | delimiter
  | float
  | exponent
  | integer
  | string
  | stringBody
  | escape
  | symbol
  | whitespace
  | comment
deriving DecidableEq, Repr

namespace Rule

/-- All rules in order. -/
def all : List Rule :=
  [.endOfInput, .program, .form, .quote, .list, .atom, .delimiter, .float, .exponent, .integer,
    .string, .stringBody, .escape, .symbol, .whitespace, .comment]

/-- The name of a rule in errors. -/
def name : Rule → String
  | .endOfInput => "EOI"
  | .program => "program"
  | .form => "form"
  | .quote => "quote"
  | .list => "list"
  | .atom => "atom"
  | .delimiter => "delimiter"
  | .float => "float"
  | .exponent => "exponent"
  | .integer => "integer"
  | .string => "string"
  | .stringBody => "string_body"
  | .escape => "escape"
  | .symbol => "symbol"
  | .whitespace => "WHITESPACE"
  | .comment => "COMMENT"

end Rule

/-- Parsing expressions. -/
inductive Expr where
  /-- The start of the text. -/
  | start
  /-- The end of the text. -/
  | finish
  /-- These characters. -/
  | text (cs : List Char)
  /-- One character that passes a test. -/
  | char (test : Char → Bool)
  /-- What a rule matches. -/
  | rule (rule : Rule)
  /-- One after the other, with nothing between them. -/
  | chain (first second : Expr)
  /-- An expression after blanks and comments, where these are skipped. -/
  | skipping (body : Expr)
  /-- The first one, or the second one where the first one fails. -/
  | choice (first second : Expr)
  /-- An expression, or nothing where it fails. -/
  | optional (body : Expr)
  /-- An expression as often as it matches. -/
  | many (body : Expr)
  /-- Nothing, where an expression would match. -/
  | ahead (body : Expr)
  /-- Nothing, where an expression would fail. -/
  | notAhead (body : Expr)

namespace Expr

/-- The parts of a sequence are skipped between. -/
def seq (first second : Expr) : Expr := .chain first (.skipping second)

/-- Any number of matches, with skipping between them. -/
def star (body : Expr) : Expr := .optional (.chain body (.many (.skipping body)))

/-- One match or more, with skipping between them. -/
def plus (body : Expr) : Expr := body.seq body.star

/-- One character. -/
def literal (c : Char) : Expr := .text [c]

/-- The first of several expressions that matches. -/
def oneOf (first : Expr) (others : List Expr) : Expr := others.foldl .choice first

/-- Any character. -/
def any : Expr := .char fun _ => true

/-- A decimal digit. -/
def digit : Expr := .char Integer.isDigit

/-- The end of a line. -/
def newline : Expr := oneOf (.text ['\n']) [.text ['\r', '\n'], .text ['\r']]

end Expr

/-- Whether a rule leaves a pair, and whether it skips. -/
inductive Kind where
  /-- It leaves a pair, and skips where the rule around it does. -/
  | normal
  /-- It leaves no pair, and skips where the rule around it does. -/
  | silent
  /-- It leaves a pair without pairs inside, and does not skip. -/
  | atomic
  /-- It leaves a pair with the pairs inside, and does not skip. -/
  | compound
  /-- It leaves no pair and does not skip. -/
  | hidden
deriving DecidableEq, Repr

namespace Rule

/-- The kind of a rule. -/
def kind : Rule → Kind
  | .endOfInput | .program | .quote | .list => .normal
  | .form | .atom | .delimiter | .exponent => .silent
  | .float | .integer | .stringBody | .escape | .symbol => .atomic
  | .string => .compound
  | .whitespace | .comment => .hidden

open Peg.Expr in
/-- What a rule matches. -/
def body : Rule → Expr
  | .endOfInput => .finish
  | .program => seq .start (seq (star (.rule .form)) (.rule .endOfInput))
  | .form => oneOf (.rule .quote) [.rule .list, .rule .atom]
  | .quote => seq (literal '\'') (.rule .form)
  | .list =>
    oneOf (seq (literal '(') (seq (star (.rule .form)) (literal ')')))
      [seq (literal '[') (seq (star (.rule .form)) (literal ']')),
        seq (literal '\x7b') (seq (star (.rule .form)) (literal '\x7d'))]
  | .atom => oneOf (.rule .float) [.rule .integer, .rule .string, .rule .symbol]
  | .delimiter =>
    oneOf (.char Text.isBlank)
      [literal '(', literal ')', literal '[', literal ']', literal '\x7b', literal '\x7d',
        literal '"', literal ';', literal '\'']
  | .float =>
    seq (.optional (literal '-')) (seq (plus digit) (seq
      (.choice (seq (literal '.') (seq (plus digit) (.optional (.rule .exponent)))) (.rule .exponent))
      (.ahead (.choice (.rule .delimiter) (.rule .endOfInput)))))
  | .exponent =>
    seq (.char fun c => c = 'e' || c = 'E')
      (seq (.optional (.choice (literal '+') (literal '-'))) (plus digit))
  | .integer =>
    seq (.optional (literal '-')) (seq (plus digit)
      (.ahead (.choice (.rule .delimiter) (.rule .endOfInput))))
  | .string => seq (literal '"') (seq (.rule .stringBody) (literal '"'))
  | .stringBody =>
    star (.choice (.rule .escape) (seq (.notAhead (.choice (literal '"') (literal '\\'))) any))
  | .escape =>
    seq (literal '\\')
      (oneOf (literal '"') [literal '\\', literal 'n', literal 't', literal 'r', literal '0'])
  | .symbol => plus (seq (.notAhead (.rule .delimiter)) any)
  | .whitespace => .char Text.isBlank
  | .comment => seq (literal ';') (star (seq (.notAhead newline) any))

end Rule

/-- Blanks and comments. -/
def skipped : Expr :=
  .chain (.many (.rule .whitespace)) (.many (.chain (.rule .comment) (.many (.rule .whitespace))))

/-! ### Attempts -/

/-- The rules that were tried in vain, and those that matched where they should not, at the furthest
position so far. -/
structure Attempts where
  position : Nat
  expected : List Rule
  unexpected : List Rule
deriving DecidableEq, Repr

namespace Attempts

/-- No attempts. -/
def none : Attempts := ⟨0, [], []⟩

/-- The number of attempts at a position. -/
def countAt (t : Attempts) (position : Nat) : Nat :=
  if t.position = position then t.expected.length + t.unexpected.length else 0

/-- The attempts at a position that were there before, out of those that are there now. -/
def restrict (now before : Attempts) (position : Nat) : Attempts :=
  if now.position = position then
    if before.position = position then
      ⟨position, now.expected.take before.expected.length,
        now.unexpected.take before.unexpected.length⟩
    else ⟨position, [], []⟩
  else if now.position < position then ⟨position, [], []⟩
  else now

/-- Adds a rule that was tried at a position, if it is the furthest one. -/
def add (t : Attempts) (position : Nat) (rule : Rule) (matched : Bool) : Attempts :=
  if t.position = position then
    if matched then { t with unexpected := t.unexpected ++ [rule] }
    else { t with expected := t.expected ++ [rule] }
  else t

/-- Notes a rule that was tried at a position. It stands for the rules that were tried at this position
while it was tried, unless that was just one. -/
def track (now before : Attempts) (position : Nat) (rule : Rule) (matched : Bool) : Attempts :=
  if now.countAt position = before.countAt position + 1 then now
  else (now.restrict before position).add position rule matched

end Attempts

/-! ### Matching -/

/-- What a rule has matched: the text, its position, and the pairs inside. -/
inductive Pair where
  | node (rule : Rule) (position : Nat) (text : List Char) (inner : List Pair)

/-- The state of matching: what is left of the text, the number of bytes before it, and the
attempts. -/
structure State where
  rest : List Char
  position : Nat
  attempts : Attempts

/-- The outcome of matching. -/
inductive Outcome where
  | matched (pairs : List Pair) (state : State)
  | failed (attempts : Attempts)

/-- How many rules of what kind are around an expression. -/
inductive Atomicity where
  | skipping
  | atomic
  | compound
deriving DecidableEq, Repr

/-- The lookahead in which an expression is matched. -/
inductive Lookahead where
  | none
  | ahead
  | notAhead
deriving DecidableEq, Repr

/-- What surrounds an expression. -/
structure Context where
  atomicity : Atomicity
  lookahead : Lookahead
deriving DecidableEq, Repr

namespace Context

/-- The context of the whole text. -/
def top : Context := ⟨.skipping, .none⟩

/-- The context inside a rule. -/
def inside (ctx : Context) (rule : Rule) : Context :=
  match rule.kind with
  | .normal | .silent => ctx
  | .atomic | .hidden => { ctx with atomicity := .atomic }
  | .compound => { ctx with atomicity := .compound }

/-- The context inside a lookahead. -/
def looking (ctx : Context) : Context :=
  { ctx with lookahead := if ctx.lookahead = .notAhead then .notAhead else .ahead }

/-- The context inside a negated lookahead. -/
def notLooking (ctx : Context) : Context :=
  { ctx with lookahead := if ctx.lookahead = .notAhead then .ahead else .notAhead }

end Context

/-- The number of bytes of some characters. -/
def size (cs : List Char) : Nat := (String.ofList cs).utf8ByteSize

namespace State

/-- The state before the first character. -/
def start (cs : List Char) : State := ⟨cs, 0, .none⟩

/-- Goes over some characters, if they come next. -/
def expect (s : State) (cs : List Char) : Outcome :=
  if cs.isPrefixOf s.rest then
    .matched [] { s with rest := s.rest.drop cs.length, position := s.position + size cs }
  else .failed s.attempts

/-- Goes over one character, if it passes a test. -/
def expectChar (s : State) (test : Char → Bool) : Outcome :=
  match s.rest with
  | c :: cs =>
    if test c then .matched [] { s with rest := cs, position := s.position + c.utf8Size }
    else .failed s.attempts
  | [] => .failed s.attempts

/-- The characters between two states. -/
def upTo (s t : State) : List Char := s.rest.take (s.rest.length - t.rest.length)

end State

/-- What a rule makes of the outcome of its body: a pair, unless it is silent, inside an atomic rule or
looked ahead to; and an attempt, unless it is silent or inside an atomic rule. -/
def Outcome.ofRule (rule : Rule) (ctx : Context) (s : State) : Outcome → Outcome
  | .matched pairs t =>
    if rule.kind = .silent ∨ rule.kind = .hidden then .matched pairs t
    else
      let attempts :=
        if ctx.lookahead = .notAhead ∧ ctx.atomicity ≠ .atomic then
          t.attempts.track s.attempts s.position rule true
        else t.attempts
      let pairs :=
        if ctx.lookahead = .none ∧ ctx.atomicity ≠ .atomic then
          [.node rule s.position (s.upTo t) pairs]
        else []
      .matched pairs { t with attempts }
  | .failed attempts =>
    if rule.kind = .silent ∨ rule.kind = .hidden then .failed attempts
    else if ctx.lookahead ≠ .notAhead ∧ ctx.atomicity ≠ .atomic then
      .failed (attempts.track s.attempts s.position rule false)
    else .failed attempts

/-- Matches an expression at the front of a text. The fuel bounds how deeply matches are nested. A rule
that leads back to itself before it has matched anything has no outcome with any fuel. -/
def run : Nat → Expr → Context → State → Option Outcome
  | 0, _, _, _ => none
  | fuel + 1, e, ctx, s =>
    match e with
    | .start => some (if s.position = 0 then .matched [] s else .failed s.attempts)
    | .finish => some (if s.rest.isEmpty then .matched [] s else .failed s.attempts)
    | .text cs => some (s.expect cs)
    | .char test => some (s.expectChar test)
    | .rule rule => do
      let outcome ← run fuel rule.body (ctx.inside rule) s
      return outcome.ofRule rule ctx s
    | .chain first second => do
      match ← run fuel first ctx s with
      | .failed attempts => return .failed attempts
      | .matched pairs t =>
        match ← run fuel second ctx t with
        | .failed attempts => return .failed attempts
        | .matched pairs' t => return .matched (pairs ++ pairs') t
    | .skipping body =>
      if ctx.atomicity = .skipping then do
        match ← run fuel skipped ctx s with
        | .failed attempts => return .failed attempts
        | .matched _ t => run fuel body ctx t
      else run fuel body ctx s
    | .choice first second => do
      match ← run fuel first ctx s with
      | .failed attempts => run fuel second ctx { s with attempts }
      | .matched pairs t => return .matched pairs t
    | .optional body => do
      match ← run fuel body ctx s with
      | .failed attempts => return .matched [] { s with attempts }
      | .matched pairs t => return .matched pairs t
    | .many body => do
      match ← run fuel body ctx s with
      | .failed attempts => return .matched [] { s with attempts }
      | .matched pairs t =>
        match ← run fuel (.many body) ctx t with
        | .failed attempts => return .failed attempts
        | .matched pairs' t => return .matched (pairs ++ pairs') t
    | .ahead body => do
      match ← run fuel body ctx.looking s with
      | .failed attempts => return .failed attempts
      | .matched _ t => return .matched [] { s with attempts := t.attempts }
    | .notAhead body => do
      match ← run fuel body ctx.notLooking s with
      | .failed attempts => return .matched [] { s with attempts }
      | .matched _ t => return .failed t.attempts

@[simp] theorem run_zero (e : Expr) (ctx : Context) (s : State) : run 0 e ctx s = none := by
  rw [run]

/-! ### Errors -/

/-- An error of reading: a message and a span of the text in bytes. -/
structure SyntaxError where
  message : String
  start : Nat
  stop : Nat
deriving DecidableEq, Repr

/-- Names in a row, with a word before the last one. -/
def enumerate : List String → String
  | [] => ""
  | [name] => name
  | [name, last] => name ++ " or " ++ last
  | names => ", ".intercalate names.dropLast ++ ", or " ++ names.getLastD ""

namespace Attempts

/-- Some rules in order, each of them once. -/
def names (rules : List Rule) : List String :=
  (Rule.all.filter fun rule => rules.contains rule).map Rule.name

/-- What was expected and what was not. -/
def message (t : Attempts) : String :=
  match names t.unexpected, names t.expected with
  | [], [] => "unknown parsing error"
  | [], expected => "expected " ++ enumerate expected
  | unexpected, [] => "unexpected " ++ enumerate unexpected
  | unexpected, expected =>
    "unexpected " ++ enumerate unexpected ++ "; expected " ++ enumerate expected

/-- The error at the furthest position, in a text of a number of bytes. -/
def error (t : Attempts) (total : Nat) : SyntaxError :=
  let stop := min (t.position + 1) total
  ⟨t.message, min t.position stop, stop⟩

end Attempts

/-! ### Forms -/

/-- What is built from pairs: forms, and `nil` for what is missing. -/
inductive Datum where
  | nil
  | int (n : Int64)
  | float (x : Float)
  | str (s : String)
  | sym (name : String)
  | list (items : List Datum)

/-- What the body of a string stands for. -/
def unescape : List Char → List Char
  | [] => []
  | ['\\'] => ['\\']
  | '\\' :: c :: rest =>
    (if c = 'n' then '\n' else if c = 't' then '\t' else if c = 'r' then '\r'
      else if c = '0' then '\x00' else c) :: unescape rest
  | c :: rest => c :: unescape rest

namespace Pair

/-- The rule of a pair. -/
def rule : Pair → Rule
  | .node rule .. => rule

/-- The text of a pair. -/
def text : Pair → List Char
  | .node _ _ text _ => text

/-- The pairs inside a pair. -/
def inner : Pair → List Pair
  | .node _ _ _ inner => inner

/-- The error that a pair cannot be built. -/
def error (message : String) (position : Nat) (text : List Char) : SyntaxError :=
  ⟨message, position, position + size text⟩

mutual

/-- Builds a pair. -/
def build : Pair → Except SyntaxError Datum
  | .node .list _ _ inner => (buildAll inner).map .list
  | .node .quote _ _ [] => .ok (.list [.sym Form.quoteName, .nil])
  | .node .quote _ _ (pair :: _) => (build pair).map fun d => .list [.sym Form.quoteName, d]
  | .node .integer position text _ =>
    match Integer.ofText? text with
    | some n => .ok (.int n)
    | none =>
      match Decimal.ofText? text with
      | some x => .ok (.float x)
      | none =>
        .error (error ("invalid integer literal `" ++ String.ofList text ++ "`") position text)
  | .node .float position text _ =>
    match Decimal.ofText? text with
    | some x => .ok (.float x)
    | none => .error (error ("invalid float literal `" ++ String.ofList text ++ "`") position text)
  | .node .string _ _ [] => .ok (.str "")
  | .node .string _ _ (.node _ _ body _ :: _) => .ok (.str (String.ofList (unescape body)))
  | .node .symbol _ text _ => .ok (.sym (String.ofList text))
  | .node rule position text _ => .error (error ("unexpected " ++ rule.name) position text)

/-- Builds pairs in turn, up to the first that cannot be built. -/
def buildAll : List Pair → Except SyntaxError (List Datum)
  | [] => .ok []
  | pair :: pairs =>
    match build pair with
    | .error e => .error e
    | .ok d => (buildAll pairs).map (d :: ·)

end

end Pair

/-- Reads every form of a text by the grammar, if the fuel lasts. -/
def read (fuel : Nat) (source : String) : Option (Except SyntaxError (List Datum)) := do
  match ← run fuel (.rule .program) .top (.start source.toList) with
  | .failed attempts => return .error (attempts.error source.utf8ByteSize)
  | .matched [] _ => return .ok []
  | .matched (program :: _) _ =>
    return Pair.buildAll (program.inner.filter fun pair => pair.rule ≠ .endOfInput)

end Peg

end ConfinedLisp
