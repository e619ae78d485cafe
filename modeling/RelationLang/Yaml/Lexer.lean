import RelationLang.Yaml.Scalar
import RelationLang.Yaml.Token

/-!
# The tokens of a text

**Algorithm.**  One token after the other is read at its place. A key without a mark is only known
as such by its colon, so the last thing that may be a key is kept in mind, on each level of
brackets; when a colon comes near enough, the tokens that begin the key are put in front of it.
Outside brackets the columns of the open collections are kept: a key or a dash further to the
right begins another one, and a token further to the left ends those to the right of it. A closing
bracket without an open one closes nothing. Each token uses up at least one character, so as many
steps as there are characters are enough.
-/

namespace RelationLang
namespace Yaml

/-- Something that may turn out to be a key. -/
structure Candidate where
  place : Place
  index : Nat
  /-- Whether nothing but a key can stand there. -/
  required : Bool
deriving DecidableEq, Repr

/-- The most bytes that may stand between the start of a key and its colon. -/
def keyWidth : Nat := 1024

/-- Whether a candidate is a key if a colon stands at a place: on the same line and near enough.
Quotes, escapes and blanks count as they are written. -/
def Candidate.isKey (c : Candidate) (colon : Place) : Bool :=
  c.place.line == colon.line && colon.bytes ≤ c.place.bytes + keyWidth

/-- What is known while the tokens of a text are read. -/
structure Lexer where
  /-- The place reached, with what follows it. -/
  cursor : Cursor
  /-- Whether a key or the dash of an item may begin here. -/
  keys : Bool
  /-- The columns of the open collections outside brackets, the innermost one first. -/
  columns : List Nat
  /-- The candidate within the innermost brackets. -/
  candidate : Option Candidate
  /-- The candidates around each of the open brackets, the innermost one first. -/
  outer : List (Option Candidate)
  /-- The tokens so far, the last one first. -/
  tokens : List Token
  count : Nat
deriving Repr

namespace Lexer

def start (cs : List Char) : Lexer := ⟨⟨.start, cs⟩, true, [], none, [], [], 0⟩

def inFlow (x : Lexer) : Bool := !x.outer.isEmpty

/-- The column of the innermost collection outside brackets, and one more; zero if there is
none. -/
def margin (x : Lexer) : Nat :=
  match x.columns with
  | [] => 0
  | column :: _ => column + 1

/-- A mark that a blank must follow outside brackets comes next. -/
def atMark (x : Lexer) (mark : Char) : Bool :=
  match x.cursor.rest with
  | m :: cs => m == mark && (x.inFlow || atGap cs)
  | [] => false

/-- Skips what stands in front of the next token. -/
def settle (x : Lexer) : Lexer :=
  let (cursor, keys) := seek x.inFlow false x.keys x.cursor.toPlace x.cursor.rest
  { x with cursor, keys }

/-- Goes past some characters, behind which keys may begin or not. -/
def past (x : Lexer) (count : Nat) (keys : Bool) : Lexer :=
  let cs := x.cursor.rest
  { x with cursor := ⟨x.cursor.rights (cs.take count), cs.drop count⟩, keys }

def add (x : Lexer) (t : Token) : Lexer :=
  { x with tokens := t :: x.tokens, count := x.count + 1 }

/-- Adds a token in front of which some tokens stand. -/
def addAt (x : Lexer) (index : Nat) (t : Token) : Lexer :=
  { x with tokens := x.tokens.insertIdx (x.count - index) t, count := x.count + 1 }

/-- Ends the collections that do not keep their columns. -/
def unroll (x : Lexer) (keep : Nat → Bool) : Lexer :=
  if x.inFlow then x
  else
    let ended := x.columns.takeWhile fun column => !keep column
    { x with
      columns := x.columns.dropWhile fun column => !keep column
      tokens := ended.map (fun _ => .blockEnd) ++ x.tokens
      count := x.count + ended.length }

def unrollAll (x : Lexer) : Lexer := x.unroll fun _ => false

/-- Begins a collection at a column, unless one is open there or further to the right; `index`
tokens stand in front of it. -/
def roll (x : Lexer) (column index : Nat) (t : Token) : Lexer :=
  if x.inFlow || column < x.margin then x
  else { x.addAt index t with columns := column :: x.columns }

/-- Forgets the candidate, which must not be one that had to be a key. -/
def forget? (x : Lexer) : Option Lexer :=
  if x.candidate.any (·.required) then none else some { x with candidate := none }

/-- Remembers what begins here, if a key may begin here. -/
def remember? (x : Lexer) : Option Lexer :=
  if x.keys then
    x.forget?.map fun x => { x with
      candidate := some
        ⟨x.cursor.toPlace, x.count, !x.inFlow && x.columns.head? == some x.cursor.column⟩ }
  else some x

def marker? (x : Lexer) (t : Token) : Option Lexer :=
  x.unrollAll.forget?.map fun x => (x.add t).past 3 false

def open? (x : Lexer) (t : Token) : Option Lexer :=
  x.remember?.map fun x =>
    { (x.add t).past 1 true with candidate := none, outer := x.candidate :: x.outer }

def close? (x : Lexer) (t : Token) : Option Lexer :=
  x.forget?.map fun x =>
    { (x.add t).past 1 false with candidate := x.outer.head?.join, outer := x.outer.tail }

def comma? (x : Lexer) : Option Lexer := x.forget?.map fun x => (x.add .comma).past 1 true

def dash? (x : Lexer) : Option Lexer :=
  if x.inFlow || x.keys then
    (x.roll x.cursor.column x.count .blockSequence).forget?.map fun x =>
      (x.add .dash).past 1 true
  else none

def question? (x : Lexer) : Option Lexer :=
  if x.inFlow || x.keys then
    (x.roll x.cursor.column x.count .blockMapping).forget?.map fun x =>
      (x.add .key).past 1 (!x.inFlow)
  else none

def colon? (x : Lexer) : Option Lexer :=
  match x.candidate.filter (·.isKey x.cursor.toPlace) with
  | some c =>
    let x := (x.addAt c.index .key).roll c.place.column c.index .blockMapping
    some { (x.add .value).past 1 false with candidate := none }
  | none =>
    x.forget?.bind fun x =>
      if x.inFlow || x.keys then
        let x := x.roll x.cursor.column x.count .blockMapping
        some ((x.add .value).past 1 (!x.inFlow))
      else none

def scalar? (x : Lexer) : Option Lexer :=
  x.remember?.bind fun x =>
    let behind (quoted : Bool) (text : List Char) (cursor : Cursor) (keys : Bool) : Lexer :=
      { x.add (.scalar quoted (String.ofList text)) with cursor, keys }
    let p := x.cursor.toPlace
    match x.cursor.rest with
    | '\'' :: cs =>
      (scanSingle .empty (p.right '\'') cs).map fun (text, cursor) => behind true text cursor false
    | '"' :: cs =>
      (scanDouble (cs.length + 1) .empty (p.right '"') cs).map fun (text, cursor) =>
        behind true text cursor false
    | cs =>
      if plainStarts x.inFlow cs then
        (scanPlain x.inFlow x.margin .empty p cs).map fun (text, cursor, broken) =>
          behind false text cursor broken
      else none

/-- Reads the token at the place reached. -/
def token? (x : Lexer) : Option Lexer :=
  if x.cursor.atMarker '-' x.cursor.rest then x.marker? .documentStart
  else if x.cursor.atMarker '.' x.cursor.rest then x.marker? .documentEnd
  else
    match x.cursor.rest with
    | '[' :: _ => x.open? .openSequence
    | '{' :: _ => x.open? .openMapping
    | ']' :: _ => x.close? .closeSequence
    | '}' :: _ => x.close? .closeMapping
    | ',' :: _ => x.comma?
    | '-' :: cs => if atGap cs then x.dash? else x.scalar?
    | _ =>
      if x.atMark '?' then x.question?
      else if x.atMark ':' then x.colon?
      else x.scalar?

def run? : Nat → Lexer → Option (List Token)
  | 0, _ => none
  | steps + 1, x =>
    let x := x.settle
    if x.cursor.rest.isEmpty then x.unrollAll.forget?.map (·.tokens.reverse)
    else (x.unroll (· ≤ x.cursor.column)).token?.bind (run? steps)

end Lexer

def tokens? (cs : List Char) : Option (List Token) := (Lexer.start cs).run? (cs.length + 1)

end Yaml
end RelationLang
