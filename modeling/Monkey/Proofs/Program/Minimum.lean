import Monkey.Program.Parser
import Monkey.Proofs.Grammar.Completeness
import Monkey.Proofs.Program.Reading

/-! # The minimum only decides where an expression stops

A lower minimum lets further suffixes follow and changes nothing before them. So to read an
expression with a minimum is to read it with any higher one and to go on from there
(`Rule.outcome_expression_of_le`): a failure with the higher minimum is the failure with the lower
one, and what the higher one delivers stands at the start of what the lower one delivers
(`Parser.expression_of_le`).
-/

namespace Monkey

/-- The expression stands at the start of the other one, which extends it by suffixes: one comes to
it by going down to left operands, callees and collections. -/
inductive Expr.OnSpine (e : Expr) : Expr → Prop
  | here : e.OnSpine e
  | left {op : BinaryOp} {left right : Expr} (h : e.OnSpine left) :
      e.OnSpine (.binary op left right)
  | callee {callee : Expr} {args : List Expr} (h : e.OnSpine callee) :
      e.OnSpine (.call callee args)
  | collection {collection index : Expr} (h : e.OnSpine collection) :
      e.OnSpine (.index collection index)

theorem Expr.OnSpine.trans {first second third : Expr} (h : first.OnSpine second)
    (h' : second.OnSpine third) : first.OnSpine third := by
  induction h' with
  | here => exact h
  | left _ ih => exact .left ih
  | callee _ ih => exact .callee ih
  | collection _ ih => exact .collection ih

/-! ## Places in a sequence -/

namespace Tokens

/-- The sequence from a place on; the end marker stays. -/
def drop (tokens : Tokens) (place : Nat) : Tokens :=
  { tokens with front := tokens.front.drop place }

variable {tokens rest : Tokens} {ts : List Token} {start : Nat}

theorem toList_drop (h : start ≤ tokens.front.length) :
    (tokens.drop start).toList = tokens.toList.drop start :=
  (List.drop_append_of_le_length h).symm

/-- What is left stands behind the tokens that have been read. -/
theorem eq_drop_of_prepend (h : tokens.drop start = rest.prepend ts) :
    rest = tokens.drop (start + ts.length) := by
  obtain ⟨front, last, hlast⟩ := tokens
  obtain ⟨front', last', hlast'⟩ := rest
  simp only [drop, prepend, mk.injEq] at h
  obtain ⟨hfront, rfl⟩ := h
  simp only [drop, ← List.drop_drop, hfront, List.drop_left]

/-- One of the tokens that have been read, or the next one, stands at its place. -/
theorem exists_place_of_mem (hstart : start ≤ tokens.front.length)
    (h : tokens.drop start = rest.prepend ts) {t : Token} (ht : t ∈ ts ++ [rest.current]) :
    ∃ place, start ≤ place ∧ place ≤ start + ts.length ∧ tokens.toList[place]? = some t := by
  have hplace (offset : Nat) : tokens.toList[start + offset]? = (ts ++ rest.toList)[offset]? := by
    rw [← List.getElem?_drop, ← toList_drop hstart, h, toList_prepend]
  rcases List.mem_append.mp ht with hread | hnext
  · obtain ⟨offset, hoffset⟩ := List.getElem?_of_mem hread
    have hlt := (List.getElem?_eq_some_iff.mp hoffset).1
    refine ⟨start + offset, Nat.le_add_right _ _, by omega, ?_⟩
    rw [hplace, List.getElem?_append_left hlt, hoffset]
  · cases List.mem_singleton.mp hnext
    refine ⟨start + ts.length, Nat.le_add_right _ _, Nat.le_refl _, ?_⟩
    rw [hplace, List.getElem?_append_right (Nat.le_refl _), Nat.sub_self, getElem?_toList_zero]

end Tokens

namespace Rule

/-- A careful rule that starts at a place stops there or later, and it fails at a token between the
two places. -/
theorem Careful.exists_stop {α : Type} {rule : Rule α} (hrule : Careful rule) {tokens : Tokens}
    {start : Nat} (hstart : start ≤ tokens.front.length) :
    ∃ stop, start ≤ stop ∧ stop ≤ tokens.front.length ∧
      (rule.outcome (tokens.drop start)).2 = tokens.drop stop ∧
      ∀ d, (rule.outcome (tokens.drop start)).1 = .error d →
        ∃ place t, start ≤ place ∧ place ≤ stop ∧ tokens.toList[place]? = some t ∧ d.IsAt t := by
  obtain ⟨ts, hts, -, herror⟩ := hrule (tokens.drop start)
  have hlength : ts.length ≤ tokens.front.length - start := by
    have hfront := congrArg (fun tokens => tokens.front.length) hts
    simp only [Tokens.drop, List.length_drop, Tokens.front_prepend, List.length_append] at hfront
    omega
  refine ⟨start + ts.length, Nat.le_add_right _ _, by omega, Tokens.eq_drop_of_prepend hts, ?_⟩
  intro d hd
  obtain ⟨t, ht, hblames⟩ := herror d hd
  obtain ⟨place, hle, hle', hplace⟩ := Tokens.exists_place_of_mem hstart hts ht
  exact ⟨place, t, hle, hle', hplace, hblames.isAt⟩

/-! ## Going on with a lower minimum -/

section Suffixes

open Grammar

variable {expression : Precedence → Rule Expr} {p q min : Precedence} {left e : Expr}
  {tokens rest : Tokens}

/-- Every suffix takes a token. -/
theorem length_le_of_extend (hexpression : ∀ min, Careful (expression min)) {suffix : Suffix}
    {count : Nat} (hlength : tokens.front.length = count + 1)
    (hextend : (extend expression left suffix).Reads tokens.advance e rest) :
    rest.front.length ≤ count := by
  have hle := (isSuffix_of_reads (.extend hexpression left suffix) hextend).length_le
  rwa [Tokens.length_front_advance, hlength, Nat.add_sub_cancel] at hle

/-- What holds where no suffix follows, and is kept by putting one more suffix in front, holds of
every operand and whatever follows it. -/
theorem suffixes_induct (hexpression : ∀ min, Careful (expression min)) (min : Precedence)
    {motive : Expr → Tokens → Prop}
    (stop : ∀ left tokens, Stops min tokens → motive left tokens)
    (next : ∀ left tokens suffix count, Suffix.ofKind? tokens.kind = some suffix →
      min < suffix.precedence → tokens.front.length = count + 1 →
      (∀ e middle, (extend expression left suffix).Reads tokens.advance e middle →
        middle.front.length ≤ count ∧ motive e middle) → motive left tokens)
    (left : Expr) (tokens : Tokens) : motive left tokens := by
  induction hlength : tokens.front.length using Nat.strongRecOn generalizing left tokens with
  | ind length ih =>
      by_cases hstops : Stops min tokens
      · exact stop left tokens hstops
      simp only [Stops, not_forall] at hstops
      obtain ⟨suffix, hsuffix, hlt⟩ := hstops
      cases length with
      | zero =>
          rw [Tokens.kind_of_front_eq_nil (List.eq_nil_of_length_eq_zero hlength)] at hsuffix
          cases hsuffix
      | succ count =>
          refine next left tokens suffix count hsuffix (Nat.lt_of_not_le hlt) hlength ?_
          intro e middle hextend
          have hle := length_le_of_extend hexpression hlength hextend
          exact ⟨hle, ih _ (Nat.lt_succ_of_le hle) e middle rfl⟩

/-- The count is only a bound, and whether it is larger does not matter. -/
theorem outcome_suffixes_congr (hexpression : ∀ min, Careful (expression min)) {count count' : Nat}
    (hcount : tokens.front.length ≤ count) (hcount' : tokens.front.length ≤ count') :
    (suffixes expression min count left).outcome tokens =
      (suffixes expression min count' left).outcome tokens := by
  induction left, tokens using suffixes_induct hexpression min generalizing count count' with
  | stop left tokens hstops =>
      exact (reads_suffixes_of_stops hstops count).trans (reads_suffixes_of_stops hstops _).symm
  | next left tokens suffix length hsuffix hlt hlength ih =>
      obtain ⟨count, rfl⟩ : ∃ n, count = n + 1 := Nat.exists_eq_succ_of_ne_zero (by omega)
      obtain ⟨count', rfl⟩ : ∃ n, count' = n + 1 := Nat.exists_eq_succ_of_ne_zero (by omega)
      rw [outcome_suffixes_of_lt hsuffix hlt, outcome_suffixes_of_lt hsuffix hlt]
      refine outcome_bind_congr fun e middle hextend => ?_
      obtain ⟨hle, hmore⟩ := ih e middle hextend
      exact hmore (by omega) (by omega)

/-- Extends an operand as long as suffixes follow that bind more tightly than `min`. -/
def suffixesToEnd (expression : Precedence → Rule Expr) (min : Precedence) (left : Expr) :
    Rule Expr := do
  suffixes expression min (← get).front.length left

theorem outcome_suffixesToEnd : (suffixesToEnd expression min left).outcome tokens =
    (suffixes expression min tokens.front.length left).outcome tokens :=
  outcome_bind_of_reads (reads_get.mpr ⟨rfl, rfl⟩)

theorem reads_suffixesToEnd_of_stops (h : Stops min tokens) :
    (suffixesToEnd expression min left).Reads tokens left tokens :=
  outcome_suffixesToEnd.trans (reads_suffixes_of_stops h _)

theorem outcome_suffixesToEnd_of_lt (hexpression : ∀ min, Careful (expression min))
    {suffix : Suffix} {count : Nat} (hsuffix : Suffix.ofKind? tokens.kind = some suffix)
    (hmin : min < suffix.precedence) (hlength : tokens.front.length = count + 1) :
    (suffixesToEnd expression min left).outcome tokens =
      (extend expression left suffix >>= suffixesToEnd expression min).outcome tokens.advance := by
  rw [outcome_suffixesToEnd, hlength, outcome_suffixes_of_lt hsuffix hmin]
  refine outcome_bind_congr fun e middle hextend => ?_
  have hle := length_le_of_extend hexpression hlength hextend
  rw [outcome_suffixesToEnd]
  exact outcome_suffixes_congr hexpression hle (Nat.le_refl _)

/-- To go on with a minimum is to go on with a higher one first. -/
theorem outcome_suffixesToEnd_of_le (hexpression : ∀ min, Careful (expression min)) (hle : p ≤ q) :
    (suffixesToEnd expression p left).outcome tokens =
      (suffixesToEnd expression q left >>= suffixesToEnd expression p).outcome tokens := by
  induction left, tokens using suffixes_induct hexpression q with
  | stop left tokens hstops =>
      rw [outcome_bind_of_reads (reads_suffixesToEnd_of_stops hstops)]
  | next left tokens suffix count hsuffix hlt hlength ih =>
      -- What binds more tightly than the higher minimum binds more tightly than the lower one.
      have hlt' : p < suffix.precedence := Nat.lt_of_le_of_lt hle hlt
      have hstep :
          (suffixesToEnd expression q left >>= suffixesToEnd expression p).outcome tokens =
            (extend expression left suffix >>= fun e => suffixesToEnd expression q e >>=
              suffixesToEnd expression p).outcome tokens.advance := by
        rw [outcome_bind, outcome_suffixesToEnd_of_lt hexpression hsuffix hlt hlength,
          ← outcome_bind, bind_assoc]
      rw [outcome_suffixesToEnd_of_lt hexpression hsuffix hlt' hlength, hstep]
      exact outcome_bind_congr fun e middle hextend => (ih e middle hextend).2

theorem onSpine_of_extend {suffix : Suffix}
    (h : (extend expression left suffix).Reads tokens e rest) : left.OnSpine e := by
  cases suffix with
  | call =>
      obtain ⟨args, -, rfl⟩ := reads_map.mp h
      exact .callee .here
  | index =>
      obtain ⟨index, middle, -, hclose⟩ := reads_bind.mp h
      obtain ⟨-, hpure⟩ := reads_expect_bind.mp hclose
      obtain ⟨rfl, -⟩ := reads_pure.mp hpure
      exact .collection .here
  | binary op =>
      obtain ⟨right, -, rfl⟩ := reads_map.mp h
      exact .left .here

theorem onSpine_of_suffixesToEnd (hexpression : ∀ min, Careful (expression min))
    (h : (suffixesToEnd expression min left).Reads tokens e rest) : left.OnSpine e := by
  induction left, tokens using suffixes_induct hexpression min with
  | stop left tokens hstops =>
      cases (reads_suffixesToEnd_of_stops hstops).symm.trans h
      exact .here
  | next left tokens suffix count hsuffix hlt hlength ih =>
      rw [Reads, outcome_suffixesToEnd_of_lt hexpression hsuffix hlt hlength] at h
      obtain ⟨extended, middle, hextend, hmore⟩ := reads_bind.mp h
      exact (onSpine_of_extend hextend).trans ((ih extended middle hextend).2 hmore)

theorem Careful.suffixesToEnd (hexpression : ∀ min, Careful (expression min)) (min : Precedence)
    (left : Expr) : Careful (suffixesToEnd expression min left) :=
  Careful.get.bind fun _ => .suffixes hexpression min _ left

end Suffixes

/-- To read an expression with a minimum is to read it with a higher one and to go on from there. -/
theorem outcome_expression_of_le {p q : Precedence} (hle : p ≤ q) (depth : Nat) (tokens : Tokens) :
    (expression depth p).outcome tokens =
      (expression depth q >>= suffixesToEnd (expression (depth - 1)) p).outcome tokens := by
  cases depth with
  | zero => rfl
  | succ depth =>
      have hexpression (min : Precedence) : expression (depth + 1) min =
          operand (expression depth) (block depth) >>= suffixesToEnd (expression depth) min := by
        rw [expression]
        rfl
      rw [hexpression p, hexpression q, bind_assoc]
      refine outcome_bind_congr fun left middle _ => ?_
      exact outcome_suffixesToEnd_of_le (careful_expression_block depth).1 hle

end Rule

/-! ## Parsers -/

namespace Parser

/-- A parser that stands at `start` delivers the result and stands at `stop` then. What it has
recorded does not matter and does not change. -/
def Delivers (tokens : Tokens) (min : Precedence) (start : Nat) (result : Except Diagnostic Expr)
    (stop : Nat) : Prop :=
  ∀ recorded, (expression min).run ⟨tokens.drop start, recorded⟩ =
    (result, ⟨tokens.drop stop, recorded⟩)

theorem delivers_of_outcome {tokens : Tokens} {min : Precedence} {start stop : Nat}
    {result : Except Diagnostic Expr}
    (h : (Rule.expression (tokens.drop start).front.length min).outcome (tokens.drop start) =
      (result, tokens.drop stop)) : Delivers tokens min start result stop := by
  intro recorded
  have hparse : (tokens.drop start).parseExpression min = (result, tokens.drop stop) := h
  change (((tokens.drop start).parseExpression min).1,
    Parser.mk ((tokens.drop start).parseExpression min).2 recorded) = _
  rw [hparse]

/-- With the lower of two minima a parser fails as it does with the higher one. If it delivers an
expression with the higher one, then with the lower one it gets at least as far and delivers that
expression or an extension of it, unless it fails behind the expression. -/
theorem expression_of_le {p q : Precedence} (hle : p ≤ q) (tokens : Tokens) {start : Nat}
    (hstart : start ≤ tokens.front.length) :
    ∃ stop, start ≤ stop ∧ stop ≤ tokens.front.length ∧
      ((∃ d, Delivers tokens q start (.error d) stop ∧ Delivers tokens p start (.error d) stop) ∨
        ∃ e, Delivers tokens q start (.ok e) stop ∧
          ∃ stop', stop ≤ stop' ∧ stop' ≤ tokens.front.length ∧
            ((∃ e', Delivers tokens p start (.ok e') stop' ∧ e.OnSpine e') ∨
              ∃ d place t, Delivers tokens p start (.error d) stop' ∧ stop ≤ place ∧
                place ≤ stop' ∧ tokens.toList[place]? = some t ∧ d.IsAt t)) := by
  set depth := (tokens.drop start).front.length
  have hlower := Rule.outcome_expression_of_le hle depth (tokens.drop start)
  have hhigher := (Rule.careful_expression_block depth).1 q
  obtain ⟨stop, hstop, hbound, hrest, -⟩ := hhigher.exists_stop hstart
  refine ⟨stop, hstop, hbound, ?_⟩
  rcases hq : (Rule.expression depth q).outcome (tokens.drop start) with ⟨d | e, rest⟩
  · obtain rfl : rest = tokens.drop stop := by rw [← hrest, hq]
    rw [Rule.outcome_bind_of_error hq] at hlower
    exact .inl ⟨d, delivers_of_outcome hq, delivers_of_outcome hlower⟩
  · obtain rfl : rest = tokens.drop stop := by rw [← hrest, hq]
    refine .inr ⟨e, delivers_of_outcome hq, ?_⟩
    rw [Rule.outcome_bind_of_reads hq] at hlower
    have hexpression := (Rule.careful_expression_block (depth - 1)).1
    have hmore := Rule.Careful.suffixesToEnd hexpression p e
    obtain ⟨stop', hstop', hbound', hrest', herror⟩ := hmore.exists_stop hbound
    refine ⟨stop', hstop', hbound', ?_⟩
    rcases hp : (Rule.suffixesToEnd (Rule.expression (depth - 1)) p e).outcome (tokens.drop stop)
      with ⟨d | e', rest⟩
    · obtain rfl : rest = tokens.drop stop' := by rw [← hrest', hp]
      obtain ⟨place, t, hplace⟩ := herror d (by rw [hp])
      exact .inr ⟨d, place, t, delivers_of_outcome (hlower.trans hp), hplace⟩
    · obtain rfl : rest = tokens.drop stop' := by rw [← hrest', hp]
      have hspine := Rule.onSpine_of_suffixesToEnd hexpression hp
      exact .inl ⟨e', delivers_of_outcome (hlower.trans hp), hspine⟩

/-- The tokens of `a * b - (`, where the last operand is missing. -/
def unfinished : Tokens where
  front := [⟨.ident, "a", ⟨1, 1⟩⟩, ⟨.asterisk, "*", ⟨1, 3⟩⟩, ⟨.ident, "b", ⟨1, 5⟩⟩,
    ⟨.minus, "-", ⟨1, 7⟩⟩, ⟨.lparen, "(", ⟨1, 9⟩⟩]
  last := ⟨.eof, "", ⟨1, 10⟩⟩
  last_eof := rfl

/-- Each lower minimum reads on: to `a`, to `a * b`, and to where the last operand is missing. -/
theorem expression_of_le_unfinished :
    Delivers unfinished .product 0 (.ok (.ident "a")) 1 ∧
      Delivers unfinished .sum 0 (.ok (.binary .multiply (.ident "a") (.ident "b"))) 3 ∧
      Delivers unfinished .lowest 0 (.error ⟨.noOperand .eof, ⟨1, 10⟩⟩) 5 ∧
      ∃ stop, 0 ≤ stop ∧ stop ≤ unfinished.front.length ∧
        ((∃ d, Delivers unfinished .product 0 (.error d) stop ∧
            Delivers unfinished .sum 0 (.error d) stop) ∨
          ∃ e, Delivers unfinished .product 0 (.ok e) stop ∧
            ∃ stop', stop ≤ stop' ∧ stop' ≤ unfinished.front.length ∧
              ((∃ e', Delivers unfinished .sum 0 (.ok e') stop' ∧ e.OnSpine e') ∨
                ∃ d place t, Delivers unfinished .sum 0 (.error d) stop' ∧ stop ≤ place ∧
                  place ≤ stop' ∧ unfinished.toList[place]? = some t ∧ d.IsAt t)) :=
  ⟨fun _ => rfl, fun _ => rfl, fun _ => rfl, expression_of_le (by decide) unfinished (by decide)⟩

end Parser

end Monkey
