import Monkey.Proofs.Program.Segments
import Monkey.Proofs.Token.Respacing

/-! # Positions are only reported

Rules look at the kind and the literal of a token, and at its position only to say where something
is wrong. So they do the same on tokens without positions, and what they report there is what they
reported before without its position (`Blind`). Texts that differ in the spaces between their tokens
are read as the same program and rejected for the same causes (`Token.Respacing.parse_respaced`).
-/

namespace Monkey

@[simp]
theorem Token.kind_bare (t : Token) : t.bare.kind = t.kind := rfl

@[simp]
theorem Token.literal_bare (t : Token) : t.bare.literal = t.literal := rfl

/-- The diagnostic without its position. -/
def Diagnostic.bare (d : Diagnostic) : Diagnostic :=
  { d with position := .start }

namespace Tokens

/-- The same tokens without their positions. -/
def bare (tokens : Tokens) : Tokens :=
  ⟨tokens.front.map Token.bare, tokens.last.bare, tokens.last_eof⟩

variable (tokens : Tokens)

theorem length_front_bare : tokens.bare.front.length = tokens.front.length := by
  simp [bare]

theorem current_bare : tokens.bare.current = tokens.current.bare := by
  obtain ⟨front, last, hlast⟩ := tokens
  cases front with
  | nil => rfl
  | cons t front => rfl

theorem kind_bare : tokens.bare.kind = tokens.kind := by
  rw [kind, current_bare]
  rfl

theorem advance_bare : tokens.bare.advance = tokens.advance.bare := by
  obtain ⟨front, last, hlast⟩ := tokens
  cases front with
  | nil => rfl
  | cons t front => rfl

end Tokens

namespace Rule

variable {α β : Type}

/-- What is delivered and the tokens that are left, without positions. -/
def bareOutcome : Except Diagnostic α × Tokens → Except Diagnostic α × Tokens
  | (result, rest) => (result.mapError Diagnostic.bare, rest.bare)

/-- The second rule does without positions what the first does with them. -/
def Blind (rule rule' : Rule α) : Prop :=
  ∀ tokens, rule'.outcome tokens.bare = bareOutcome (rule.outcome tokens)

namespace Blind

/-! ## Single tokens -/

theorem pure (a : α) : Blind (Pure.pure a) (Pure.pure a) :=
  fun _ => rfl

theorem bind {rule rule' : Rule α} {next next' : α → Rule β} (hrule : Blind rule rule')
    (hnext : ∀ a, Blind (next a) (next' a)) : Blind (rule >>= next) (rule' >>= next') := by
  intro tokens
  rw [outcome_bind, outcome_bind, hrule tokens]
  rcases rule.outcome tokens with ⟨d | a, rest⟩
  · rfl
  · exact hnext a rest

theorem fail (cause : Diagnostic.Cause) (t : Token) :
    Blind (fail cause t : Rule α) (fail cause t.bare) :=
  fun _ => rfl

theorem skip : Blind skip skip := by
  intro tokens
  change ((.ok (), tokens.bare.advance) : Except Diagnostic Unit × Tokens) = _
  rw [Tokens.advance_bare]
  rfl

theorem peek_bind {next next' : Token → Rule β} (hnext : ∀ t, Blind (next t) (next' t.bare)) :
    Blind (peek >>= next) (peek >>= next') := by
  intro tokens
  change (next' tokens.bare.current).outcome tokens.bare = _
  rw [Tokens.current_bare]
  exact hnext tokens.current tokens

/-- A rule that is told how many tokens are left. -/
theorem length_bind {next next' : Nat → Rule β}
    (hnext : ∀ count, Blind (next count) (next' count)) :
    Blind (do next (← get).front.length) (do next' (← get).front.length) := by
  intro tokens
  change (next' tokens.bare.front.length).outcome tokens.bare = _
  rw [Tokens.length_front_bare]
  exact hnext _ tokens

theorem accept (kind : Token.Kind) : Blind (accept kind) (accept kind) := by
  refine peek_bind fun t => ?_
  rw [Token.kind_bare]
  split
  · exact skip.bind fun _ => pure _
  · exact pure _

theorem expect_bind {next next' : Token → Rule β} (kind : Token.Kind)
    (hnext : ∀ t, Blind (next t) (next' t.bare)) :
    Blind (expect kind >>= next) (expect kind >>= next') := by
  rw [expect, bind_assoc, bind_assoc]
  refine peek_bind fun t => ?_
  rw [Token.kind_bare]
  split
  · rw [bind_assoc, bind_assoc]
    refine skip.bind fun _ => ?_
    rw [pure_bind, pure_bind]
    exact hnext t
  · intro tokens
    rfl

theorem expect_pure (kind : Token.Kind) (a : α) :
    Blind (do let _ ← expect kind; Pure.pure a) (do let _ ← expect kind; Pure.pure a) :=
  expect_bind kind fun _ => pure a

theorem name : Blind name name :=
  expect_bind _ fun _ => pure _

/-! ## Repetition -/

theorem many {step step' : Rule (Option α)} (hstep : Blind step step') (count : Nat) :
    Blind (many step count) (many step' count) := by
  induction count with
  | zero => exact pure _
  | succ count ih =>
      refine hstep.bind fun item => ?_
      cases item with
      | none => exact pure _
      | some a => exact ih.bind fun _ => pure _

theorem manyToEnd {step step' : Rule (Option α)} (hstep : Blind step step') :
    Blind (manyToEnd step) (manyToEnd step') :=
  length_bind hstep.many

theorem commaList {item item' : Rule α} (hitem : Blind item item') (close : Token.Kind) :
    Blind (commaList item close) (commaList item' close) := by
  have hfurther : Blind (furtherItem item) (furtherItem item') := by
    refine (accept _).bind fun found => ?_
    split
    · exact hitem.bind fun _ => pure _
    · exact pure _
  refine (accept close).bind fun found => ?_
  split
  · exact pure _
  · exact hitem.bind fun _ => hfurther.manyToEnd.bind fun _ => expect_pure close _

/-! ## Statements and expressions -/

theorem condition {expression expression' : Rule Expr}
    (hexpression : Blind expression expression') :
    Blind (condition expression) (condition expression') :=
  expect_bind _ fun _ => hexpression.bind fun e => expect_pure _ e

theorem statement {expression expression' : Rule Expr} {block block' : Rule Block}
    (hexpression : Blind expression expression') (hblock : Blind block block') :
    Blind (statement expression block) (statement expression' block') := by
  have hend (s : Stmt) : Blind (do let _ ← Rule.accept .semicolon; return s)
      (do let _ ← Rule.accept .semicolon; return s) :=
    (accept _).bind fun _ => pure _
  refine peek_bind fun t => ?_
  rw [Token.kind_bare]
  split
  next =>
    refine skip.bind fun _ => name.bind fun _ => expect_bind _ fun _ => ?_
    exact hexpression.bind fun _ => (pure _).bind hend
  next => exact skip.bind fun _ => hexpression.bind fun _ => (pure _).bind hend
  next => exact hblock.bind fun _ => (pure _).bind hend
  next => exact hexpression.bind fun _ => (pure _).bind hend

theorem statements {statement statement' : Rule Stmt} (hstatement : Blind statement statement') :
    Blind (statements statement) (statements statement') := by
  have hitem : Blind (blockItem statement) (blockItem statement') := by
    refine peek_bind fun t => ?_
    rw [Token.kind_bare]
    split
    next => exact pure _
    next => exact pure _
    next => exact skip.bind fun _ => pure _
    next => exact hstatement.bind fun _ => pure _
  exact hitem.manyToEnd.bind fun _ => pure _

section Expressions

variable {expression expression' : Precedence → Rule Expr} {block block' : Rule Block}

theorem operand (hexpression : ∀ min, Blind (expression min) (expression' min))
    (hblock : Blind block block') :
    Blind (operand expression block) (operand expression' block') := by
  refine peek_bind fun t => ?_
  rw [Token.kind_bare]
  split
  next => exact skip.bind fun _ => pure _
  next =>
    rw [Token.literal_bare]
    refine skip.bind fun _ => ?_
    split
    · exact pure _
    · exact fail _ t
  next =>
    rw [Token.literal_bare]
    refine skip.bind fun _ => ?_
    split
    · exact pure _
    · exact fail _ t
  next => exact skip.bind fun _ => pure _
  next => exact skip.bind fun _ => pure _
  next => exact skip.bind fun _ => pure _
  next => exact skip.bind fun _ => (hexpression _).bind fun _ => pure _
  next => exact skip.bind fun _ => (hexpression _).bind fun _ => pure _
  next => exact skip.bind fun _ => (hexpression _).bind fun e => expect_pure _ e
  next => exact skip.bind fun _ => ((hexpression _).commaList _).bind fun _ => pure _
  next =>
    refine skip.bind fun _ => (hexpression _).condition.bind fun _ => hblock.bind fun _ => ?_
    refine (accept _).bind fun found => ?_
    split
    · exact hblock.bind fun _ => pure _
    · exact pure _
  next =>
    exact skip.bind fun _ => (hexpression _).condition.bind fun _ => hblock.bind fun _ => pure _
  next =>
    refine skip.bind fun _ => expect_bind _ fun _ => ?_
    exact (name.commaList _).bind fun _ => hblock.bind fun _ => pure _
  next => exact fail (noOperand t) t

theorem extend (hexpression : ∀ min, Blind (expression min) (expression' min)) (left : Expr)
    (suffix : Suffix) : Blind (extend expression left suffix) (extend expression' left suffix) := by
  cases suffix with
  | call => exact ((hexpression _).commaList _).bind fun _ => pure _
  | index => exact (hexpression _).bind fun _ => expect_pure _ _
  | binary op => exact (hexpression _).bind fun _ => pure _

theorem suffixes (hexpression : ∀ min, Blind (expression min) (expression' min))
    (min : Precedence) (count : Nat) (left : Expr) :
    Blind (suffixes expression min count left) (suffixes expression' min count left) := by
  induction count generalizing left with
  | zero => exact pure _
  | succ count ih =>
      refine peek_bind fun t => ?_
      rw [Token.kind_bare]
      split
      next => exact pure _
      next suffix _ =>
        split
        next => exact skip.bind fun _ => (extend hexpression left suffix).bind ih
        next => exact pure _

end Expressions

end Blind

/-- No rule for expressions or blocks looks at positions. -/
theorem blind_expression_block (depth : Nat) :
    (∀ min, Blind (expression depth min) (expression depth min)) ∧
      Blind (block depth) (block depth) := by
  induction depth with
  | zero =>
      exact ⟨fun _ => .peek_bind fun t => .fail (noOperand t) t, .peek_bind fun t => .fail _ t⟩
  | succ depth ih =>
      obtain ⟨hexpression, hblock⟩ := ih
      constructor
      · intro min
        refine (Blind.operand hexpression hblock).bind fun left => ?_
        exact .length_bind fun count => .suffixes hexpression min count left
      · refine .expect_bind _ fun _ => ?_
        exact (Blind.statement (hexpression _) hblock).statements.bind fun _ => .expect_pure _ _

end Rule

/-! ## Programs -/

/-- What a segment contributes, without positions. -/
def Segment.bare : Segment → Segment
  | .abandoned d => .abandoned d.bare
  | other => other

namespace Tokens

open Rule

theorem synchronize_bare (tokens : Tokens) : tokens.bare.synchronize = tokens.synchronize.bare := by
  have hboundary : tokens.bare.toBoundary = tokens.toBoundary.bare := by
    simp only [toBoundary, bare, List.dropWhile_map]
    rfl
  rw [synchronize_eq, synchronize_eq, hboundary, kind_bare, advance_bare]
  split
  · rfl
  · rfl

theorem outcome_topStatement_bare (tokens : Tokens) :
    tokens.bare.topStatement.outcome tokens.bare =
      bareOutcome (tokens.topStatement.outcome tokens) := by
  have hblind := blind_expression_block tokens.front.length
  rw [topStatement, length_front_bare]
  exact Blind.statement (hblind.1 _) hblind.2 tokens

theorem Segmented.bare {tokens rest : Tokens} {segments : List Segment}
    (h : Segmented tokens segments rest) :
    Segmented tokens.bare (segments.map Segment.bare) rest.bare := by
  induction h with
  | @done tokens heof => exact .done ((kind_bare tokens).trans heof)
  | @separator tokens rest segments hsemicolon _ ih =>
      rw [← advance_bare] at ih
      exact .separator ((kind_bare tokens).trans hsemicolon) ih
  | @statement tokens middle rest s segments heof hsemicolon houtcome _ ih =>
      have hbare := tokens.outcome_topStatement_bare
      rw [houtcome] at hbare
      exact .statement ((kind_bare tokens).trans_ne heof) ((kind_bare tokens).trans_ne hsemicolon)
        hbare ih
  | @abandoned tokens middle rest d segments heof hsemicolon houtcome _ ih =>
      have hbare := tokens.outcome_topStatement_bare
      rw [houtcome] at hbare
      rw [← synchronize_bare] at ih
      exact .abandoned ((kind_bare tokens).trans_ne heof) ((kind_bare tokens).trans_ne hsemicolon)
        hbare ih

/-- Without positions, the same program is read and the same causes are found. -/
theorem parseProgram_bare (tokens : Tokens) : tokens.bare.parseProgram.1 =
    ⟨tokens.parseProgram.1.program, tokens.parseProgram.1.diagnostics.map Diagnostic.bare⟩ := by
  obtain ⟨segments, rest, hsegmented⟩ := tokens.exists_segmented
  have hstatement : Segment.statement? ∘ Segment.bare = Segment.statement? := by
    funext segment
    cases segment <;> rfl
  have hdiagnostic : Segment.diagnostic? ∘ Segment.bare =
      fun segment => segment.diagnostic?.map Diagnostic.bare := by
    funext segment
    cases segment <;> rfl
  rw [hsegmented.bare.parseProgram_eq, hsegmented.parseProgram_eq, List.filterMap_map, hstatement,
    List.filterMap_map, hdiagnostic, List.map_filterMap]

end Tokens

/-! ## Source texts -/

namespace Token.Respacing

variable {pieces : List Piece} {trailing trailing' : List Char} {source source' : String}

theorem tokens_bare_eq (h : Respacing pieces trailing trailing' source.toList source'.toList)
    (htokens : (tokenize source).front = pieces.map Piece.token)
    (hopen : ∀ t ∈ (tokenize source).front.getLast?, t.Unterminated → trailing' = []) :
    (tokenize source').bare = (tokenize source).bare := by
  have hlast (source : String) : (tokenize source).last.bare = ⟨.eof, "", .start⟩ := by
    obtain ⟨-, -, hlast⟩ := (Reader.ofSource source).laidOut [] rfl
    rw [tokenize, hlast]
    rfl
  simp only [Tokens.bare, h.tokenize_eq htokens hopen, hlast]

/-- Texts that differ only in the spaces between their tokens have the same tokens, are read as the
same program, and are rejected for the same causes. -/
theorem parse_respaced (h : Respacing pieces trailing trailing' source.toList source'.toList)
    (htokens : (tokenize source).front = pieces.map Piece.token)
    (hopen : ∀ t ∈ (tokenize source).front.getLast?, t.Unterminated → trailing' = []) :
    (tokenize source').toList.map (fun t => (t.kind, t.literal)) =
        (tokenize source).toList.map (fun t => (t.kind, t.literal)) ∧
      (parse source').program = (parse source).program ∧
      (parse source').diagnostics.map Diagnostic.cause =
        (parse source).diagnostics.map Diagnostic.cause := by
  have hbare := h.tokens_bare_eq htokens hopen
  have hcontent (tokens : Tokens) : tokens.toList.map (fun t => (t.kind, t.literal)) =
      tokens.bare.toList.map (fun t => (t.kind, t.literal)) := by
    simp [Tokens.toList, Tokens.bare]
  have hcause (ds : List Diagnostic) : ds.map Diagnostic.cause =
      (ds.map Diagnostic.bare).map Diagnostic.cause := by
    rw [List.map_map]
    rfl
  have hparsed := (tokenize source').parseProgram_bare
  rw [hbare, (tokenize source).parseProgram_bare] at hparsed
  obtain ⟨hprogram, hdiagnostics⟩ := Parsed.mk.inj hparsed
  refine ⟨?_, hprogram.symm, ?_⟩
  · rw [hcontent, hbare, ← hcontent]
  · rw [hcause, parse, ← hdiagnostics, ← hcause, parse]

end Token.Respacing

/-- Two statements with few spaces, the second of which ends in an open string. -/
def crampedLine : String := "let a=1;a== \"b"

/-- The same statements on several lines. -/
def airyLines : String := "\nlet\ta = 1 ;\r\na == \t\"b"

def airyPieces : List Token.Piece :=
  [⟨⟨.letWord, "let", ⟨1, 1⟩⟩, [], ['\n']⟩, ⟨⟨.ident, "a", ⟨1, 5⟩⟩, [' '], ['\t']⟩,
    ⟨⟨.assign, "=", ⟨1, 6⟩⟩, [], [' ']⟩, ⟨⟨.int, "1", ⟨1, 7⟩⟩, [], [' ']⟩,
    ⟨⟨.semicolon, ";", ⟨1, 8⟩⟩, [], [' ']⟩, ⟨⟨.ident, "a", ⟨1, 9⟩⟩, [], ['\r', '\n']⟩,
    ⟨⟨.eq, "==", ⟨1, 10⟩⟩, [], [' ']⟩, ⟨⟨.illegal, "\"b", ⟨1, 13⟩⟩, [' '], [' ', '\t']⟩]

theorem respacing_airyLines :
    Token.Respacing airyPieces [] [] crampedLine.toList airyLines.toList where
  text_eq := by decide +kernel
  text_eq' := by decide +kernel
  space_of_mem := by simp [airyPieces]
  space_of_mem_trailing := nofun
  apart := by decide +kernel

theorem parse_respaced_airyLines :
    (Token.tokenize crampedLine).front = airyPieces.map Token.Piece.token ∧
      (parse airyLines).program = (parse crampedLine).program ∧
      (parse airyLines).diagnostics.map Diagnostic.cause = [.illegal "\"b"] := by
  have htokens : (Token.tokenize crampedLine).front = airyPieces.map Token.Piece.token := by
    decide +kernel
  have hsame := respacing_airyLines.parse_respaced htokens fun _ _ _ => rfl
  have hcauses : (parse crampedLine).diagnostics.map Diagnostic.cause = [.illegal "\"b"] := by
    decide +kernel
  exact ⟨htokens, hsame.2.1, hsame.2.2.trans hcauses⟩

end Monkey
