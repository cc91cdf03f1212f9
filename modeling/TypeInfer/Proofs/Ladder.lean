/-
The ladder of precedence: names and numbers, attributes, calls and subscripts, the operators, and
tuples and lists. An expression is spelled with parentheses where its own rung is looser than the
one its place asks for; `Expr.unplaced` takes its spans out. `Begins` and `Stops` say with which
tokens an expression on a rung begins, and which may come after it.
-/
import TypeInfer.Syntax.Basic
import TypeInfer.Token.Basic

namespace TypeInfer

open List

variable (es : List Expr) {e : Expr} {k : TokenKind} {items : List (List TokenKind)}

/-- The rungs, from the loosest to the tightest. -/
inductive Rung where
  | conditional
  | or
  | and
  | not
  | comparison
  | bitOr
  | bitXor
  | bitAnd
  | shift
  | arith
  | term
  | factor
  | power
  | await
  | primary
  | atom
deriving DecidableEq

namespace Rung

def height : Rung → Nat
  | .conditional => 0
  | .or => 1
  | .and => 2
  | .not => 3
  | .comparison => 4
  | .bitOr => 5
  | .bitXor => 6
  | .bitAnd => 7
  | .shift => 8
  | .arith => 9
  | .term => 10
  | .factor => 11
  | .power => 12
  | .await => 13
  | .primary => 14
  | .atom => 15

/-- The next tighter rung. -/
def tighter : Rung → Rung
  | .conditional => .or
  | .or => .and
  | .and => .not
  | .not => .comparison
  | .comparison => .bitOr
  | .bitOr => .bitXor
  | .bitXor => .bitAnd
  | .bitAnd => .shift
  | .shift => .arith
  | .arith => .term
  | .term => .factor
  | .factor => .power
  | .power => .await
  | .await => .primary
  | .primary | .atom => .atom

theorem height_le_atom (L : Rung) : L.height ≤ Rung.atom.height := by cases L <;> decide

theorem height_tighter {L : Rung} (h : L ≠ .atom) : L.tighter.height = L.height + 1 := by
  cases L with
  | atom => contradiction
  | _ => rfl

theorem height_le_tighter (L : Rung) : L.height ≤ L.tighter.height := by cases L <;> decide

theorem height_inj {K L : Rung} (h : K.height = L.height) : K = L := by
  cases K <;> cases L <;> first | rfl | cases h

/-- What is spelled on one rung, at a place that asks for another. -/
def around (place own : Rung) (ts : List TokenKind) : List TokenKind :=
  if own.height < place.height then .symbol .leftParen :: (ts ++ [.symbol .rightParen]) else ts

end Rung

/-! ### Operators -/

namespace Operator

def mark : Operator → Symbol
  | .add => .plus
  | .sub => .minus
  | .mult => .star
  | .matMult => .at
  | .div => .slash
  | .floorDiv => .doubleSlash
  | .mod => .percent
  | .pow => .doubleStar
  | .shiftLeft => .shiftLeft
  | .shiftRight => .shiftRight
  | .bitOr => .pipe
  | .bitXor => .caret
  | .bitAnd => .amp

def rung : Operator → Rung
  | .add | .sub => .arith
  | .mult | .matMult | .div | .floorDiv | .mod => .term
  | .pow => .power
  | .shiftLeft | .shiftRight => .shift
  | .bitOr => .bitOr
  | .bitXor => .bitXor
  | .bitAnd => .bitAnd

/-- The rung of the left operand: a power is no base of a power. -/
def leftPlace (op : Operator) : Rung := if op = .pow then .await else op.rung

/-- The rung asked of the right operand: a sign may stand in an exponent. -/
def rightPlace (op : Operator) : Rung := if op = .pow then .factor else op.rung.tighter

end Operator

namespace UnaryOperator

def token : UnaryOperator → TokenKind
  | .not => .keyword .notKw
  | .neg => .symbol .minus
  | .pos => .symbol .plus
  | .invert => .symbol .tilde

/-- The rung of the operator, which is also the one asked of its operand. -/
def rung : UnaryOperator → Rung
  | .not => .not
  | .neg | .pos | .invert => .factor

end UnaryOperator

namespace BoolOperator

def word : BoolOperator → Keyword
  | .and => .andKw
  | .or => .orKw

def rung : BoolOperator → Rung
  | .and => .and
  | .or => .or

end BoolOperator

/-- The tokens of a comparison, one or two. -/
def CmpOperator.tokens : CmpOperator → List TokenKind
  | .eq => [.symbol .eqEq]
  | .notEq => [.symbol .notEq]
  | .lt => [.symbol .lt]
  | .ltEq => [.symbol .ltEq]
  | .gt => [.symbol .gt]
  | .gtEq => [.symbol .gtEq]
  | .is => [.keyword .isKw]
  | .isNot => [.keyword .isKw, .keyword .notKw]
  | .isIn => [.keyword .inKw]
  | .notIn => [.keyword .notKw, .keyword .inKw]

/-! ### Spelling -/

/-- Spelled items with a token between them. -/
def joined (mark : TokenKind) : List (List TokenKind) → List TokenKind
  | [] => []
  | ts :: more => ts ++ more.flatMap (mark :: ·)

theorem joined_cons_cons (mark : TokenKind) (ts us : List TokenKind) (more : List (List TokenKind)) :
    joined mark (ts :: us :: more) = ts ++ mark :: joined mark (us :: more) := rfl

/-- The items of a tuple; one alone has a comma after it. -/
def tupleItems : List (List TokenKind) → List TokenKind
  | [ts] => ts ++ [.symbol .comma]
  | items => joined (.symbol .comma) items

namespace Expr

/-- The rung on which an expression stands. -/
def rung : Expr → Rung
  | .conditional .. => .conditional
  | .boolean _ op _ => op.rung
  | .compare .. => .comparison
  | .binary _ _ op _ => op.rung
  | .unary _ op _ => op.rung
  | .await .. => .await
  | .attribute .. | .subscript .. | .call .. => .primary
  | _ => .atom

end Expr

mutual

/-- The tokens of an expression on the ladder. -/
def Expr.tokens : Expr → List TokenKind
  | .name _ id => [.ident id]
  | .int _ text => [.int text]
  | .float _ text => [.float text]
  | .imaginary _ text => [.imaginary text]
  | .attribute _ value attr =>
    Rung.primary.around value.rung value.tokens ++ [.symbol .dot, .ident attr.name]
  | .subscript _ value index =>
    Rung.primary.around value.rung value.tokens ++
      .symbol .leftBracket :: (Rung.conditional.around index.rung index.tokens ++ [.symbol .rightBracket])
  | .call _ func args =>
    Rung.primary.around func.rung func.tokens ++
      .symbol .leftParen :: (joined (.symbol .comma) (Arg.allTokens args) ++ [.symbol .rightParen])
  | .binary _ left op right =>
    op.leftPlace.around left.rung left.tokens ++
      .symbol op.mark :: op.rightPlace.around right.rung right.tokens
  | .unary _ op operand => op.token :: op.rung.around operand.rung operand.tokens
  | .boolean _ op values => joined (.keyword op.word) (Expr.allTokens op.rung.tighter values)
  | .compare _ left ops comparators =>
    Rung.bitOr.around left.rung left.tokens ++
      (ops.zip (Expr.allTokens .bitOr comparators)).flatMap fun p => p.1.tokens ++ p.2
  | .conditional _ test body orElse =>
    Rung.or.around body.rung body.tokens ++
      .keyword .ifKw :: (Rung.or.around test.rung test.tokens ++
        .keyword .elseKw :: Rung.conditional.around orElse.rung orElse.tokens)
  | .list _ elts =>
    .symbol .leftBracket :: (joined (.symbol .comma) (Expr.allTokens .conditional elts) ++ [.symbol .rightBracket])
  | .tuple _ elts =>
    .symbol .leftParen :: (tupleItems (Expr.allTokens .conditional elts) ++ [.symbol .rightParen])
  | .await _ value => .keyword .awaitKw :: Rung.primary.around value.rung value.tokens
  | _ => []

/-- The tokens of each of the expressions, at places that ask for the rung. -/
def Expr.allTokens (place : Rung) : List Expr → List (List TokenKind)
  | [] => []
  | e :: es => place.around e.rung e.tokens :: Expr.allTokens place es

def Arg.tokens : Arg → List TokenKind
  | .positional e => Rung.conditional.around e.rung e.tokens
  | _ => []

def Arg.allTokens : List Arg → List (List TokenKind)
  | [] => []
  | a :: args => a.tokens :: Arg.allTokens args

end

/-- The tokens of an expression at a place that asks for the rung. -/
def Rung.spell (place : Rung) (e : Expr) : List TokenKind := place.around e.rung e.tokens

theorem Expr.allTokens_eq (place : Rung) (es : List Expr) : Expr.allTokens place es = es.map place.spell := by
  induction es with
  | nil => rfl
  | cons e es ih => rw [Expr.allTokens, ih]; rfl

theorem Arg.allTokens_positional :
    Arg.allTokens (es.map .positional) = es.map Rung.conditional.spell := by
  induction es with
  | nil => rfl
  | cons e es ih => rw [map_cons, Arg.allTokens, Arg.tokens, ih]; rfl

namespace Expr

variable (span : Span) (value left e : Expr) (es : List Expr)

theorem tokens_attribute (attr : Ident) :
    (Expr.attribute span value attr).tokens = Rung.primary.spell value ++ [.symbol .dot, .ident attr.name] := rfl

theorem tokens_subscript (index : Expr) : (subscript span value index).tokens =
    Rung.primary.spell value ++
      .symbol .leftBracket :: (Rung.conditional.spell index ++ [.symbol .rightBracket]) := rfl

theorem tokens_call (func : Expr) (es : List Expr) : (call span func (es.map .positional)).tokens =
    Rung.primary.spell func ++
      .symbol .leftParen :: (joined (.symbol .comma) (es.map Rung.conditional.spell) ++ [.symbol .rightParen]) := by
  rw [← Arg.allTokens_positional]
  rfl

theorem tokens_binary (op : Operator) (right : Expr) : (binary span left op right).tokens =
    op.leftPlace.spell left ++ .symbol op.mark :: op.rightPlace.spell right := rfl

theorem tokens_unary (op : UnaryOperator) (operand : Expr) :
    (unary span op operand).tokens = op.token :: op.rung.spell operand := rfl

/-- The operands of a chain after the first one, each with the word before it. -/
def chainTokens (op : BoolOperator) (es : List Expr) : List TokenKind :=
  es.flatMap fun e => .keyword op.word :: op.rung.tighter.spell e

theorem tokens_boolean (op : BoolOperator) (v : Expr) (vs : List Expr) :
    (boolean span op (v :: vs)).tokens = op.rung.tighter.spell v ++ chainTokens op vs := by
  rw [chainTokens, ← flatMap_map, ← Expr.allTokens_eq]
  rfl

/-- Comparisons, each with its operand after it. -/
def comparisonTokens (pairs : List (CmpOperator × Expr)) : List TokenKind :=
  pairs.flatMap fun p => p.1.tokens ++ Rung.bitOr.spell p.2

theorem tokens_compare (ops : List CmpOperator) (comparators : List Expr) :
    (compare span left ops comparators).tokens =
      Rung.bitOr.spell left ++ comparisonTokens (ops.zip comparators) := by
  have hzip : ops.zip (Expr.allTokens .bitOr comparators) =
      (ops.zip comparators).map fun p => (p.1, Rung.bitOr.spell p.2) := by
    rw [Expr.allTokens_eq, zip_map_right]
    rfl
  show _ ++ (ops.zip (Expr.allTokens .bitOr comparators)).flatMap _ = _
  rw [hzip, flatMap_map]
  rfl

theorem tokens_conditional (test body orElse : Expr) : (conditional span test body orElse).tokens =
    Rung.or.spell body ++ .keyword .ifKw :: (Rung.or.spell test ++ .keyword .elseKw :: Rung.conditional.spell orElse) :=
  rfl

/-- The elements after the first one, each with a comma before it. -/
def moreTokens (es : List Expr) : List TokenKind := es.flatMap fun e => .symbol .comma :: Rung.conditional.spell e

/-- What comes after the first element of a tuple, which is a comma at least. -/
def tupleTail : List Expr → List TokenKind
  | [] => [.symbol .comma]
  | es => moreTokens es

theorem tokens_list : (list span (e :: es)).tokens =
    .symbol .leftBracket :: (Rung.conditional.spell e ++ (moreTokens es ++ [.symbol .rightBracket])) := by
  rw [moreTokens, ← flatMap_map, ← Expr.allTokens_eq, ← append_assoc]
  rfl

theorem tokens_tuple : (tuple span (e :: es)).tokens =
    .symbol .leftParen :: (Rung.conditional.spell e ++ (tupleTail es ++ [.symbol .rightParen])) := by
  rw [← append_assoc]
  cases es with
  | nil => rfl
  | cons e' es =>
    rw [tupleTail, moreTokens, ← flatMap_map, ← Expr.allTokens_eq]
    · rfl
    · nofun

theorem tokens_await :
    (await span value).tokens = .keyword .awaitKw :: Rung.primary.spell value := rfl

end Expr

namespace Rung

variable {L : Rung} {e : Expr}

theorem spell_of_le (h : L.height ≤ e.rung.height) : L.spell e = e.tokens := if_neg (Nat.not_lt.2 h)

theorem spell_of_lt (h : e.rung.height < L.height) :
    L.spell e = .symbol .leftParen :: (e.tokens ++ [.symbol .rightParen]) := if_pos h

theorem spell_conditional (e : Expr) : Rung.conditional.spell e = e.tokens := spell_of_le (Nat.zero_le _)

theorem spell_tighter (hL : L ≠ .atom) (h : e.rung ≠ L) : L.tighter.spell e = L.spell e := by
  have htighter := height_tighter hL
  have hne : e.rung.height ≠ L.height := fun heq => h (height_inj heq)
  by_cases hlt : e.rung.height < L.height
  · rw [spell_of_lt hlt, spell_of_lt (by omega)]
  · rw [spell_of_le (by omega), spell_of_le (by omega)]

end Rung

/-! ### Expressions on the ladder -/

/-- Names, numbers, attributes, calls, subscripts, operators, tuples and lists. -/
inductive Expr.OnLadder : Expr → Prop
  | name (span : Span) (id : String) : OnLadder (.name span id)
  | int (span : Span) (text : String) : OnLadder (.int span text)
  | float (span : Span) (text : String) : OnLadder (.float span text)
  | imaginary (span : Span) (text : String) : OnLadder (.imaginary span text)
  | attr {value : Expr} (span : Span) (name : Ident) (hvalue : OnLadder value) :
      OnLadder (.attribute span value name)
  | subscript {value index : Expr} (span : Span) (hvalue : OnLadder value) (hindex : OnLadder index) :
      OnLadder (.subscript span value index)
  | call {func : Expr} {es : List Expr} (span : Span) (hfunc : OnLadder func) (hargs : ∀ e ∈ es, OnLadder e) :
      OnLadder (.call span func (es.map .positional))
  | binary {left right : Expr} (span : Span) (op : Operator) (hleft : OnLadder left) (hright : OnLadder right) :
      OnLadder (.binary span left op right)
  | unary {operand : Expr} (span : Span) (op : UnaryOperator) (hoperand : OnLadder operand) :
      OnLadder (.unary span op operand)
  | boolean {values : List Expr} (span : Span) (op : BoolOperator) (htwo : 2 ≤ values.length)
      (hvalues : ∀ e ∈ values, OnLadder e) : OnLadder (.boolean span op values)
  | compare {left : Expr} {ops : List CmpOperator} {comparators : List Expr} (span : Span) (hleft : OnLadder left)
      (hops : ops ≠ []) (hlength : ops.length = comparators.length) (hcomparators : ∀ e ∈ comparators, OnLadder e) :
      OnLadder (.compare span left ops comparators)
  | conditional {test body orElse : Expr} (span : Span) (htest : OnLadder test) (hbody : OnLadder body)
      (hor : OnLadder orElse) : OnLadder (.conditional span test body orElse)
  | list {elts : List Expr} (span : Span) (helts : ∀ e ∈ elts, OnLadder e) : OnLadder (.list span elts)
  | tuple {elts : List Expr} (span : Span) (helts : ∀ e ∈ elts, OnLadder e) : OnLadder (.tuple span elts)
  | await {value : Expr} (span : Span) (hvalue : OnLadder value) : OnLadder (.await span value)

mutual

/-- The expression without the places it was read from. -/
def Expr.unplaced : Expr → Expr
  | .name _ id => .name default id
  | .int _ text => .int default text
  | .float _ text => .float default text
  | .imaginary _ text => .imaginary default text
  | .attribute _ value attr => .attribute default value.unplaced { attr with span := default }
  | .subscript _ value index => .subscript default value.unplaced index.unplaced
  | .call _ func args => .call default func.unplaced (Arg.allUnplaced args)
  | .binary _ left op right => .binary default left.unplaced op right.unplaced
  | .unary _ op operand => .unary default op operand.unplaced
  | .boolean _ op values => .boolean default op (Expr.allUnplaced values)
  | .compare _ left ops comparators => .compare default left.unplaced ops (Expr.allUnplaced comparators)
  | .conditional _ test body orElse => .conditional default test.unplaced body.unplaced orElse.unplaced
  | .list _ elts => .list default (Expr.allUnplaced elts)
  | .tuple _ elts => .tuple default (Expr.allUnplaced elts)
  | .await _ value => .await default value.unplaced
  | e => e

def Expr.allUnplaced : List Expr → List Expr
  | [] => []
  | e :: es => e.unplaced :: Expr.allUnplaced es

def Arg.unplaced : Arg → Arg
  | .positional e => .positional e.unplaced
  | a => a

def Arg.allUnplaced : List Arg → List Arg
  | [] => []
  | a :: args => a.unplaced :: Arg.allUnplaced args

end

theorem Expr.allUnplaced_eq : Expr.allUnplaced es = es.map Expr.unplaced := by
  induction es with
  | nil => rfl
  | cons e es ih => rw [Expr.allUnplaced, ih]; rfl

theorem Arg.allUnplaced_eq (args : List Arg) : Arg.allUnplaced args = args.map Arg.unplaced := by
  induction args with
  | nil => rfl
  | cons a args ih => rw [Arg.allUnplaced, ih]; rfl

/-! ### First tokens -/

/-- The rung of an expression that begins with the token. -/
def TokenKind.begins : TokenKind → Option Rung
  | .ident _ | .int _ | .float _ | .imaginary _ | .symbol .leftParen | .symbol .leftBracket => some .atom
  | .keyword .awaitKw => some .await
  | .symbol .minus | .symbol .plus | .symbol .tilde => some .factor
  | .keyword .notKw => some .not
  | _ => none

namespace Rung

variable {K L : Rung} {ts us : List TokenKind} {e : Expr}

/-- The tokens begin an expression of the rung or of a tighter one. -/
def Begins (L : Rung) (ts : List TokenKind) : Prop :=
  ∃ k us K, ts = k :: us ∧ k.begins = some K ∧ L.height ≤ K.height

section

variable (h : L.Begins ts)
include h

theorem Begins.append (us : List TokenKind) : L.Begins (ts ++ us) := by
  obtain ⟨k, ts, K, rfl, hk, hle⟩ := h
  exact ⟨k, ts ++ us, K, rfl, hk, hle⟩

theorem Begins.mono (hle : K.height ≤ L.height) : K.Begins ts := by
  obtain ⟨k, us, M, hts, hk, hle'⟩ := h
  exact ⟨k, us, M, hts, hk, Nat.le_trans hle hle'⟩

theorem Begins.length_pos : 0 < ts.length := by
  obtain ⟨k, us, K, rfl, -⟩ := h
  exact Nat.succ_pos us.length

theorem Begins.head_ne {k} (hk : ∀ K ∈ k.begins, K.height < L.height) (us : List TokenKind) :
    (ts ++ us).headD .eof ≠ k := by
  obtain ⟨k', ts, K, rfl, hk', hle⟩ := h
  rintro rfl
  exact absurd (hk K hk') (Nat.not_lt.2 hle)

end

theorem begins_spell (h : e.rung.Begins e.tokens) (L : Rung) : L.Begins (L.spell e) := by
  by_cases hlt : e.rung.height < L.height
  · rw [spell_of_lt hlt]
    exact ⟨_, _, .atom, rfl, rfl, height_le_atom L⟩
  · rw [spell_of_le (Nat.not_lt.1 hlt)]
    exact h.mono (Nat.not_lt.1 hlt)

end Rung

theorem Operator.rung_le_leftPlace (op : Operator) : op.rung.height ≤ op.leftPlace.height := by
  cases op <;> decide

/-- An expression begins as its rung says. -/
theorem Expr.OnLadder.begins {e : Expr} (h : e.OnLadder) : e.rung.Begins e.tokens := by
  induction h with
  | name | int | float | imaginary => exact ⟨_, _, .atom, rfl, rfl, Nat.le_refl _⟩
  | attr span name hvalue ih => exact (Rung.begins_spell ih .primary).append _
  | subscript span hvalue hindex ih => exact (Rung.begins_spell ih .primary).append _
  | call span hfunc hargs ih => exact (Rung.begins_spell ih .primary).append _
  | binary span op hleft hright ih =>
    exact ((Rung.begins_spell ih op.leftPlace).append _).mono op.rung_le_leftPlace
  | unary span op hoperand ih => exact ⟨op.token, _, op.rung, rfl, by cases op <;> rfl, Nat.le_refl _⟩
  | @boolean values span op htwo hvalues ih =>
    cases values with
    | nil => simp at htwo
    | cons v vs =>
      have hv := (Rung.begins_spell (ih v (by simp)) op.rung.tighter).append
        ((Expr.allTokens op.rung.tighter vs).flatMap (.keyword op.word :: ·))
      exact hv.mono op.rung.height_le_tighter
  | compare span hleft hops hlength hcomparators ih =>
    exact ((Rung.begins_spell ih .bitOr).append _).mono Rung.comparison.height_le_tighter
  | conditional span htest hbody hor ihtest ihbody =>
    exact ((Rung.begins_spell ihbody .or).append _).mono Rung.conditional.height_le_tighter
  | list => exact ⟨_, _, .atom, rfl, rfl, Nat.le_refl _⟩
  | tuple => exact ⟨_, _, .atom, rfl, rfl, Nat.le_refl _⟩
  | await => exact ⟨_, _, .await, rfl, rfl, Nat.le_refl _⟩

/-! ### Following tokens -/

/-- The rung on which an expression goes on with the token. -/
def TokenKind.goesOn : TokenKind → Option Rung
  | .symbol .dot | .symbol .leftParen | .symbol .leftBracket => some .primary
  | .symbol .doubleStar => some .power
  | .symbol .star | .symbol .slash | .symbol .doubleSlash | .symbol .percent | .symbol .at => some .term
  | .symbol .plus | .symbol .minus => some .arith
  | .symbol .shiftLeft | .symbol .shiftRight => some .shift
  | .symbol .amp => some .bitAnd
  | .symbol .caret => some .bitXor
  | .symbol .pipe => some .bitOr
  | .symbol .lt | .symbol .gt | .symbol .ltEq | .symbol .gtEq | .symbol .eqEq | .symbol .notEq => some .comparison
  | .keyword .inKw | .keyword .isKw | .keyword .notKw => some .comparison
  | .keyword .andKw => some .and
  | .keyword .orKw => some .or
  | .keyword .ifKw => some .conditional
  | _ => none

theorem TokenKind.ne_of_goesOn {K : Rung} (h : k.goesOn = some K) : K ≠ .factor ∧ K ≠ .atom := by
  unfold TokenKind.goesOn at h
  split at h <;> first | (obtain rfl := Option.some.inj h; decide) | cases h

/-- The tokens that end an expression wherever they stand. -/
def TokenKind.closes : TokenKind → Bool
  | .newline | .symbol .comma | .symbol .rightParen | .symbol .rightBracket | .keyword .elseKw => true
  | _ => false

namespace Rung

variable {K L : Rung} {ks : List TokenKind}

/-- With these tokens an expression goes on neither on the rung nor on a tighter one. -/
def Stops (L : Rung) (ks : List TokenKind) : Prop := ∀ K ∈ (ks.headD .eof).goesOn, K.height < L.height

theorem Stops.mono (h : L.Stops ks) (hle : L.height ≤ K.height) : K.Stops ks :=
  fun M hM => Nat.lt_of_lt_of_le (h M hM) hle

theorem Stops.goesOn_ne (h : L.Stops ks) : (ks.headD .eof).goesOn ≠ some L :=
  fun hL => Nat.lt_irrefl _ (h L hL)

/-- Signs stand before an expression only. -/
theorem Stops.factor (h : Rung.power.Stops ks) : Rung.factor.Stops ks := by
  intro K hK
  have hlt : K.height < Rung.factor.height + 1 := h K hK
  have hne : K.height ≠ Rung.factor.height := fun heq => (TokenKind.ne_of_goesOn hK).1 (height_inj heq)
  omega

theorem stops_atom (ks : List TokenKind) : Rung.atom.Stops ks := by
  intro K hK
  have hle := K.height_le_atom
  have hne : K.height ≠ Rung.atom.height := fun heq => (TokenKind.ne_of_goesOn hK).2 (height_inj heq)
  omega

theorem stops_of_closes (h : (ks.headD .eof).closes = true) (L : Rung) : L.Stops ks := by
  intro K hK
  revert h hK
  fun_cases TokenKind.closes (ks.headD .eof) <;> simp [TokenKind.goesOn, *]

theorem stops_of_looser (h : (ks.headD .eof).goesOn = some K) (hlt : K.height < L.height) : L.Stops ks := by
  intro M hM
  obtain rfl := Option.some.inj (h.symm.trans hM)
  exact hlt

theorem stops_mark {op : Operator} (h : op.rung.height < L.height) (ks : List TokenKind) :
    L.Stops (.symbol op.mark :: ks) := by
  have hmark : (TokenKind.symbol op.mark).goesOn = some op.rung := by cases op <;> rfl
  exact stops_of_looser hmark h

theorem stops_word (op : BoolOperator) (ks : List TokenKind) : op.rung.tighter.Stops (.keyword op.word :: ks) := by
  have hword : (TokenKind.keyword op.word).goesOn = some op.rung := by cases op <;> rfl
  exact stops_of_looser hword (by cases op <;> decide)

theorem stops_if (ks : List TokenKind) : Rung.or.Stops (.keyword .ifKw :: ks) :=
  stops_of_looser (K := .conditional) rfl (by decide)

theorem stops_comparison (op : CmpOperator) (ks : List TokenKind) : Rung.bitOr.Stops (op.tokens ++ ks) := by
  have hop : ((op.tokens ++ ks).headD .eof).goesOn = some .comparison := by cases op <;> rfl
  exact stops_of_looser hop (by decide)

end Rung

/-! ### Marks that bind -/

/-- The marks that bind a name to what comes after them. -/
def TokenKind.binds (k : TokenKind) : Bool := k = .symbol .eq || k = .symbol .colonEq

/-- There is no mark that binds among the tokens. -/
def Unbound (ts : List TokenKind) : Prop := ∀ k ∈ ts, k.binds = false

theorem unbound_nil : Unbound [] := forall_mem_nil _

theorem Unbound.cons {ts : List TokenKind} (hk : k.binds = false) (h : Unbound ts) :
    Unbound (k :: ts) := forall_mem_cons.2 ⟨hk, h⟩

theorem Unbound.append {ts us : List TokenKind} (hts : Unbound ts) (hus : Unbound us) : Unbound (ts ++ us) :=
  forall_mem_append.2 ⟨hts, hus⟩

theorem unbound_flatMap {f : β → List TokenKind} {bs : List β} (h : ∀ b ∈ bs, Unbound (f b)) :
    Unbound (bs.flatMap f) := by
  intro k hk
  obtain ⟨b, hb, hk⟩ := mem_flatMap.1 hk
  exact h b hb k hk

theorem unbound_joined {mark : TokenKind} (hmark : mark.binds = false)
    (h : ∀ ts ∈ items, Unbound ts) : Unbound (joined mark items) := by
  cases items with
  | nil => exact unbound_nil
  | cons ts more =>
    obtain ⟨hts, hmore⟩ := forall_mem_cons.1 h
    exact hts.append (unbound_flatMap fun us hus => (hmore us hus).cons hmark)

theorem unbound_tupleItems (h : ∀ ts ∈ items, Unbound ts) : Unbound (tupleItems items) := by
  unfold tupleItems
  split
  · exact (h _ (by simp)).append (unbound_nil.cons rfl)
  · exact unbound_joined rfl h

theorem unbound_spell (h : Unbound e.tokens) (L : Rung) : Unbound (L.spell e) := by
  unfold Rung.spell Rung.around
  split
  · exact (h.append (unbound_nil.cons rfl)).cons rfl
  · exact h

theorem unbound_allTokens {es : List Expr} (h : ∀ e ∈ es, Unbound e.tokens) (L : Rung) :
    ∀ ts ∈ Expr.allTokens L es, Unbound ts := by
  rw [Expr.allTokens_eq]
  exact forall_mem_map.2 fun e he => unbound_spell (h e he) L

theorem Expr.OnLadder.unbound (h : e.OnLadder) : Unbound e.tokens := by
  induction h with
  | name | int | float | imaginary => exact unbound_nil.cons rfl
  | attr span name hvalue ih =>
    have hname : Unbound [.symbol .dot, .ident name.name] := (unbound_nil.cons rfl).cons rfl
    exact (unbound_spell ih .primary).append hname
  | subscript span hvalue hindex ihvalue ihindex =>
    have hclose : Unbound [.symbol .rightBracket] := unbound_nil.cons rfl
    exact (unbound_spell ihvalue .primary).append (((unbound_spell ihindex .conditional).append hclose).cons rfl)
  | @call func es span hfunc hargs ihfunc ihargs =>
    have hargs : Unbound (joined (.symbol .comma) (Arg.allTokens (es.map .positional))) := by
      rw [Arg.allTokens_positional, ← Expr.allTokens_eq]
      exact unbound_joined rfl (unbound_allTokens ihargs .conditional)
    exact (unbound_spell ihfunc .primary).append ((hargs.append (unbound_nil.cons rfl)).cons rfl)
  | binary span op hleft hright ihleft ihright =>
    exact (unbound_spell ihleft _).append ((unbound_spell ihright _).cons (by cases op <;> rfl))
  | unary span op hoperand ih => exact (unbound_spell ih _).cons (by cases op <;> rfl)
  | boolean span op htwo hvalues ih =>
    exact unbound_joined (by cases op <;> rfl) (unbound_allTokens ih op.rung.tighter)
  | compare span hleft hops hlength hcomparators ihleft ih =>
    refine (unbound_spell ihleft .bitOr).append (unbound_flatMap fun p hp => ?_)
    have hcmp : Unbound p.1.tokens := by cases p.1 <;> unfold Unbound <;> decide
    exact hcmp.append (unbound_allTokens ih .bitOr p.2 (of_mem_zip hp).2)
  | conditional span htest hbody hor ihtest ihbody ihor =>
    have hor := (unbound_spell ihor .conditional).cons (k := .keyword .elseKw) rfl
    exact (unbound_spell ihbody .or).append (((unbound_spell ihtest .or).append hor).cons rfl)
  | list span helts ih =>
    exact ((unbound_joined rfl (unbound_allTokens ih .conditional)).append (unbound_nil.cons rfl)).cons rfl
  | tuple span helts ih =>
    exact ((unbound_tupleItems (unbound_allTokens ih .conditional)).append (unbound_nil.cons rfl)).cons rfl
  | await span hvalue ih => exact (unbound_spell ih .primary).cons rfl

/-- The token after the first one is no mark that binds. -/
theorem Unbound.second {L : Rung} {ts ks : List TokenKind} (h : Unbound ts) (hbegins : L.Begins ts)
    (hks : (ks.headD .eof).binds = false) : ((ts ++ ks).tail.headD .eof).binds = false := by
  obtain ⟨k, us, K, rfl, -⟩ := hbegins
  cases us with
  | nil => exact hks
  | cons k' us => exact h k' (by simp)

end TypeInfer
