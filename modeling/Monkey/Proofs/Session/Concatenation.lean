import Monkey.Proofs.Evaluation.Signals.Agreement
import Monkey.Proofs.Grammar.Legal
import Monkey.Proofs.Program.Concatenation
import Monkey.Proofs.Session

/-! # A session fed at once or in pieces

The statements of a source are performed one after the other, up to the first that is abrupt
(`Performs`). So two sources at once, with a semicolon between them, do what the first and then the
second does, and if a statement of the first is abrupt then they do what the first does
(`evalSource_semicolon`).
-/

namespace Monkey.Session

/-- The statement has the value and leaves the world. -/
def Evaluates (session : Session) (frame : FrameRef) (s : Stmt) (world : World) (value : Value)
    (world' : World) : Prop :=
  ∃ fuel, (session.evalStmt fuel frame s).run world = some (value, world')

/-- The statements that are performed, the value of the last of them and the world that they leave:
all statements, or those up to the first that is abrupt. -/
inductive Performs (session : Session) (frame : FrameRef) :
    List Stmt → Value → World → List Stmt → Value → World → Prop
  | done {start world} : Performs session frame [] start world [] start world
  | abrupt {s rest start world value world'} : session.Evaluates frame s world value world' →
    value.isAbrupt = true → Performs session frame (s :: rest) start world [s] value world'
  | next {s rest start world middle world₁ performed value world'} :
    session.Evaluates frame s world middle world₁ → middle.isAbrupt = false →
    Performs session frame rest middle world₁ performed value world' →
    Performs session frame (s :: rest) start world (s :: performed) value world'

/-- The session answers to a source, given enough fuel. -/
def Answers (session : Session) (source : String) (world : World)
    (result : Except (List Diagnostic) Value) (world' : World) : Prop :=
  ∃ fuel, (session.evalSource fuel source).run world = some (result, world')

/-! ## Single statements -/

variable {session : Session} {frame : FrameRef} {s : Stmt} {p q performed performed' : List Stmt}
  {start value value' : Value} {world world' world₁ : World}

theorem evaluates_iff : session.Evaluates frame s world value world' ↔
    (session.plan world (.stmt frame s)).Ends (.one value) world' := by
  rw [← Task.exists_run_iff]
  exact exists_congr fun fuel => map_one_eq_some.symm

/-- More fuel keeps the value of a statement. -/
theorem run_evalStmt_mono {fuel fuel' : Nat} {reply : Value × World} (hle : fuel ≤ fuel')
    (hrun : (session.evalStmt fuel frame s).run world = some reply) :
    (session.evalStmt fuel' frame s).run world = some reply := by
  have htask : Task.run fuel session world (.stmt frame s) = some (.one reply.1, reply.2) :=
    map_one_eq_some.mpr hrun
  exact map_one_eq_some.mp (Task.run_mono hle htask)

theorem Evaluates.eq_of_run {fuel : Nat} {reply : Value × World}
    (h : session.Evaluates frame s world value world')
    (hrun : (session.evalStmt fuel frame s).run world = some reply) : reply = (value, world') := by
  obtain ⟨fuel', hrun'⟩ := h
  have hmax := run_evalStmt_mono (Nat.le_max_left fuel fuel') hrun
  rw [run_evalStmt_mono (Nat.le_max_right fuel fuel') hrun'] at hmax
  exact (Option.some.inj hmax).symm

theorem Evaluates.unique (h : session.Evaluates frame s world value world')
    (h' : session.Evaluates frame s world value' world₁) : value' = value ∧ world₁ = world' := by
  obtain ⟨fuel, hrun⟩ := h'
  cases h.eq_of_run hrun
  exact ⟨rfl, rfl⟩

/-! ## Statements in a row -/

theorem ends_block_cons {rest : List Stmt} :
    (session.plan world (.block frame (s :: rest) start)).Ends (.one value) world' ↔
      ∃ middle world₁, session.Evaluates frame s world middle world₁ ∧
        if middle.isAbrupt then value = middle ∧ world' = world₁
        else (session.plan world₁ (.block frame rest middle)).Ends (.one value) world' := by
  constructor
  · rintro (_ | _ | ⟨hstmt, hnext⟩)
    rename_i result world₁
    cases result with
    | many => cases hnext
    | one middle =>
        refine ⟨middle, world₁, evaluates_iff.mpr hstmt, ?_⟩
        rw [Plan.andThen] at hnext
        split
        next habrupt =>
          rw [if_pos habrupt] at hnext
          cases hnext
          exact ⟨rfl, rfl⟩
        next habrupt =>
          rw [if_neg habrupt] at hnext
          rcases hnext with _ | _ | ⟨hrest, hdone⟩
          cases hdone
          exact hrest
  · rintro ⟨middle, world₁, hstmt, hnext⟩
    refine .call (evaluates_iff.mp hstmt) ?_
    rw [Plan.andThen]
    split at hnext
    next habrupt =>
      obtain ⟨rfl, rfl⟩ := hnext
      rw [if_pos habrupt]
      exact .done
    next habrupt =>
      rw [if_neg habrupt]
      exact .call hnext .done

theorem exists_performs_iff :
    (∃ performed, session.Performs frame p start world performed value world') ↔
      (session.plan world (.block frame p start)).Ends (.one value) world' := by
  constructor
  · rintro ⟨performed, h⟩
    induction h with
    | done => exact .done
    | abrupt hstmt habrupt => exact ends_block_cons.mpr ⟨_, _, hstmt, by simp [habrupt]⟩
    | next hstmt hnormal _ ih =>
        exact ends_block_cons.mpr ⟨_, _, hstmt, by simpa [hnormal] using ih⟩
  · intro hends
    induction p generalizing start world with
    | nil =>
        cases hends
        exact ⟨[], .done⟩
    | cons s rest ih =>
        obtain ⟨middle, world₁, hstmt, hnext⟩ := ends_block_cons.mp hends
        split at hnext
        next habrupt =>
          obtain ⟨rfl, rfl⟩ := hnext
          exact ⟨[s], .abrupt hstmt habrupt⟩
        next habrupt =>
          obtain ⟨performed, hrest⟩ := ih hnext
          exact ⟨s :: performed, .next hstmt (by simpa using habrupt) hrest⟩

theorem run_evalBlock_cons {rest : List Stmt} (fuel : Nat) :
    (session.evalBlock (fuel + 1) frame (s :: rest) start).run world =
      ((session.evalStmt fuel frame s).run world).bind fun reply =>
        if reply.1.isAbrupt then some reply
        else (session.evalBlock fuel frame rest reply.1).run reply.2 := by
  rw [evalBlock, Eval.andThen, StateT.run_bind]
  cases (session.evalStmt fuel frame s).run world with
  | none => rfl
  | some reply =>
      change StateT.run (if reply.1.isAbrupt then _ else _) reply.2 =
        if reply.1.isAbrupt then _ else _
      split
      · rfl
      · rfl

namespace Performs

/-- What is performed stands in front. -/
theorem exists_append (h : session.Performs frame p start world performed value world') :
    ∃ rest, p = performed ++ rest := by
  induction h with
  | done => exact ⟨[], rfl⟩
  | @abrupt s rest => exact ⟨rest, rfl⟩
  | next _ _ _ ih =>
      obtain ⟨rest, rfl⟩ := ih
      exact ⟨rest, rfl⟩

/-- The first statement is performed whatever stood before it. -/
theorem restart {rest : List Stmt} {start' : Value}
    (h : session.Performs frame (s :: rest) start world performed value world') :
    session.Performs frame (s :: rest) start' world performed value world' := by
  cases h with
  | abrupt hstmt habrupt => exact .abrupt hstmt habrupt
  | next hstmt hnormal hrest => exact .next hstmt hnormal hrest

/-- Without an abrupt value all statements are performed. -/
theorem performed_eq (h : session.Performs frame p start world performed value world')
    (hnormal : value.isAbrupt = false) : performed = p := by
  induction h with
  | done => rfl
  | abrupt _ habrupt => simp [habrupt] at hnormal
  | next _ _ _ ih => rw [ih hnormal]

/-- Behind statements none of which is abrupt, the others are performed. -/
theorem append_iff (h : session.Performs frame p start world performed value world₁)
    (hnormal : value.isAbrupt = false) :
    session.Performs frame (p ++ q) start world performed' value' world' ↔
      ∃ more, performed' = p ++ more ∧
        session.Performs frame q value world₁ more value' world' := by
  induction h generalizing performed' with
  | done => simp
  | abrupt _ habrupt => simp [habrupt] at hnormal
  | next hstmt hmiddle _ ih =>
      constructor
      · rintro (_ | ⟨hstmt', habrupt⟩ | ⟨hstmt', -, hrest⟩)
        · obtain ⟨rfl, rfl⟩ := hstmt.unique hstmt'
          simp [habrupt] at hmiddle
        · obtain ⟨rfl, rfl⟩ := hstmt.unique hstmt'
          obtain ⟨more, rfl, hmore⟩ := (ih hnormal).mp hrest
          exact ⟨more, rfl, hmore⟩
      · rintro ⟨more, rfl, hmore⟩
        exact .next hstmt hmiddle ((ih hnormal).mpr ⟨more, rfl, hmore⟩)

/-- Nothing is performed behind an abrupt statement. -/
theorem append_of_abrupt (h : session.Performs frame p start world performed value world₁)
    (hstart : start.isAbrupt = false) (habrupt : value.isAbrupt = true)
    (h' : session.Performs frame (p ++ q) start world performed' value' world') :
    performed' = performed ∧ value' = value ∧ world' = world₁ := by
  induction h generalizing performed' with
  | done => simp [habrupt] at hstart
  | abrupt hstmt _ =>
      rcases h' with _ | ⟨hstmt', -⟩ | ⟨hstmt', hnormal, -⟩
      · obtain ⟨rfl, rfl⟩ := hstmt.unique hstmt'
        exact ⟨rfl, rfl, rfl⟩
      · obtain ⟨rfl, rfl⟩ := hstmt.unique hstmt'
        simp [habrupt] at hnormal
  | next hstmt hnormal _ ih =>
      rcases h' with _ | ⟨hstmt', habrupt'⟩ | ⟨hstmt', -, hrest⟩
      · obtain ⟨rfl, rfl⟩ := hstmt.unique hstmt'
        simp [habrupt'] at hnormal
      · obtain ⟨rfl, rfl⟩ := hstmt.unique hstmt'
        obtain ⟨rfl, rfl, rfl⟩ := ih hnormal habrupt hrest
        exact ⟨rfl, rfl, rfl⟩

/-- Up to an abrupt statement, evaluation does not depend on what follows, with any fuel. -/
theorem run_evalBlock_append (h : session.Performs frame p start world performed value world₁)
    (hstart : start.isAbrupt = false) (habrupt : value.isAbrupt = true) (fuel : Nat) :
    (session.evalBlock fuel frame (p ++ q) start).run world =
      (session.evalBlock fuel frame p start).run world := by
  induction h generalizing fuel with
  | done => simp [habrupt] at hstart
  | @abrupt s rest start world value world' hstmt _ =>
      cases fuel with
      | zero => rfl
      | succ fuel =>
          rw [List.cons_append, run_evalBlock_cons, run_evalBlock_cons]
          cases hrun : (session.evalStmt fuel frame s).run world with
          | none => rfl
          | some reply =>
              cases hstmt.eq_of_run hrun
              simp [habrupt]
  | @next s rest start world middle world₁ performed value world' hstmt hnormal _ ih =>
      cases fuel with
      | zero => rfl
      | succ fuel =>
          rw [List.cons_append, run_evalBlock_cons, run_evalBlock_cons]
          cases hrun : (session.evalStmt fuel frame s).run world with
          | none => rfl
          | some reply =>
              cases hstmt.eq_of_run hrun
              simp [hnormal, ih hnormal habrupt fuel]

end Performs

/-! ## Sources -/

/-- The answer to a source that is read without a diagnostic comes from the statements that are
performed. -/
theorem answers_iff {source : String} (haccept : (parse source).diagnostics = [])
    {result : Except (List Diagnostic) Value} :
    session.Answers source world result world' ↔
      ∃ performed value, session.Performs session.top (parse source).program .null world performed
        value world' ∧ result = .ok value.unwrapReturn := by
  constructor
  · rintro ⟨fuel, hrun⟩
    rw [run_evalSource haccept] at hrun
    obtain ⟨reply, hreply, hresult⟩ := Option.map_eq_some_iff.mp hrun
    cases hresult
    rcases exists_run_evalProgram_iff.mp ⟨fuel, hreply⟩ with _ | _ | ⟨hblock, hdone⟩
    rename_i inner _
    obtain ⟨hunwrap, hworld⟩ := Plan.ends_done_iff.mp hdone
    cases inner with
    | many => cases hunwrap
    | one value =>
        rw [← hworld] at hblock
        obtain ⟨performed, hperforms⟩ := exists_performs_iff.mpr hblock
        exact ⟨performed, value, hperforms, congrArg Except.ok (Result.one.inj hunwrap)⟩
  · rintro ⟨performed, value, hperforms, rfl⟩
    have hblock := exists_performs_iff.mp ⟨performed, hperforms⟩
    have hends : (session.plan world (.program session.top (parse source).program)).Ends
        (.one value.unwrapReturn) world' := .call hblock .done
    obtain ⟨fuel, hrun⟩ := exists_run_evalProgram_iff.mpr hends
    exact ⟨fuel, by rw [run_evalSource haccept, hrun]; rfl⟩

theorem parse_accepted {source source' : String} (haccept : (parse source).diagnostics = [])
    (haccept' : (parse source').diagnostics = []) :
    parse (source ++ ";\n" ++ source') =
      ⟨(parse source).program ++ (parse source').program, []⟩ := by
  have hsingle (source : String) : ∀ t ∈ (Token.tokenize source).front, t.kind ≠ .eof :=
    fun t ht => (Token.lexical_of_mem_tokenize source t ht).kind_ne
  have hend : ∀ d ∈ (parse source).diagnostics, ¬ d.IsAt (Token.tokenize source).last := by
    simp [haccept]
  rw [parse, Token.tokenize_semicolon (not_unterminated_of_accepted haccept),
    Tokens.parseProgram_semicolon (hsingle source) (hsingle source') hend rfl]
  change Parsed.mk _ ((parse source).diagnostics ++ (parse source').diagnostics.map _) = _
  rw [haccept, haccept']
  rfl

theorem unwrapReturn_of_normal (hnormal : value.isAbrupt = false) : value.unwrapReturn = value := by
  cases value with
  | returned => cases hnormal
  | _ => rfl

/-- Two sources at once, with a semicolon and a line feed between them, in any session and any
world. If no statement of the first is abrupt, then the answers are those of the second in the world
that the first leaves. If one is abrupt, then the evaluation is that of the first alone, and the
statements that are performed are its statements up to that one. -/
theorem evalSource_semicolon (session : Session) (world : World) {source source' : String}
    (haccept : (parse source).diagnostics = []) (haccept' : (parse source').diagnostics = []) :
    (∀ value world₁,
      session.Performs session.top (parse source).program .null world (parse source).program value
        world₁ →
      value.isAbrupt = false →
        session.Answers source world (.ok value) world₁ ∧
        ∀ result world₂, session.Answers (source ++ ";\n" ++ source') world result world₂ ↔
          ∃ value', session.Answers source' world₁ (.ok value') world₂ ∧
            result = .ok (if (parse source').program.isEmpty then value else value')) ∧
    ∀ performed value world₁,
      session.Performs session.top (parse source).program .null world performed value world₁ →
      value.isAbrupt = true →
        session.Answers source world (.ok value.unwrapReturn) world₁ ∧
        (∀ fuel, (session.evalSource fuel (source ++ ";\n" ++ source')).run world =
          (session.evalSource fuel source).run world) ∧
        ∀ performed' value' world',
          session.Performs session.top (parse (source ++ ";\n" ++ source')).program .null world
            performed' value' world' →
          performed' = performed ∧ (∃ rest, (parse source).program = performed ++ rest) ∧
            value' = value ∧ world' = world₁ := by
  have hparse := parse_accepted haccept haccept'
  have hboth : (parse (source ++ ";\n" ++ source')).diagnostics = [] := by rw [hparse]
  constructor
  · intro value world₁ hperforms hnormal
    have hvalue := unwrapReturn_of_normal hnormal
    refine ⟨(answers_iff haccept).mpr ⟨_, value, hperforms, by rw [hvalue]⟩,
      fun result world₂ => ?_⟩
    rw [answers_iff hboth, hparse]
    simp only [hperforms.append_iff hnormal]
    cases hrest : (parse source').program with
    | nil =>
        constructor
        · rintro ⟨_, _, ⟨_, rfl, ⟨⟩⟩, rfl⟩
          refine ⟨.null, (answers_iff haccept').mpr ⟨[], .null, ?_, rfl⟩, by rw [hvalue]; rfl⟩
          rw [hrest]
          exact .done
        · rintro ⟨value', hanswers, rfl⟩
          obtain ⟨_, _, hdone, -⟩ := (answers_iff haccept').mp hanswers
          rw [hrest] at hdone
          cases hdone
          exact ⟨_, value, ⟨[], rfl, .done⟩, by rw [hvalue]; rfl⟩
    | cons s rest =>
        constructor
        · rintro ⟨_, value', ⟨more, rfl, hmore⟩, rfl⟩
          refine ⟨_, (answers_iff haccept').mpr ⟨more, value', ?_, rfl⟩, rfl⟩
          rw [hrest]
          exact hmore.restart
        · rintro ⟨_, hanswers, rfl⟩
          obtain ⟨more, value', hmore, hresult⟩ := (answers_iff haccept').mp hanswers
          rw [hrest] at hmore
          exact ⟨_, value', ⟨more, rfl, hmore.restart⟩, hresult⟩
  · intro performed value world₁ hperforms habrupt
    refine ⟨(answers_iff haccept).mpr ⟨_, value, hperforms, rfl⟩, fun fuel => ?_, ?_⟩
    · rw [run_evalSource hboth, run_evalSource haccept, hparse]
      cases fuel with
      | zero => rfl
      | succ fuel =>
          have hblock :=
            hperforms.run_evalBlock_append (q := (parse source').program) rfl habrupt fuel
          simp only [evalProgram, StateT.run_bind, hblock]
    · intro performed' value' world' hperforms'
      rw [hparse] at hperforms'
      obtain ⟨rfl, rfl, rfl⟩ := hperforms.append_of_abrupt rfl habrupt hperforms'
      exact ⟨rfl, hperforms.exists_append, rfl, rfl⟩

/-- A source that makes an array and a function that changes it. -/
def collector : String := "let a = [1]; let f = fn(x) \x7b add(a, x) \x7d"

/-- A source that calls the function. -/
def collecting : String := "f(2);\nlen(a)"

theorem evalSource_semicolon_collector :
    (parse collector).diagnostics = [] ∧ (parse collecting).diagnostics = [] ∧
      ∃ world₁ world₂, Session.fresh.Answers collector .fresh (.ok .null) world₁ ∧
        world₁.memory.arrays = #[#[.integer 1]] ∧
        Session.fresh.Answers collecting world₁ (.ok (.integer 2)) world₂ ∧
        world₂.memory.arrays = #[#[.integer 1, .integer 2]] ∧
        Session.fresh.Answers (collector ++ ";\n" ++ collecting) .fresh (.ok (.integer 2))
          world₂ := by
  have haccept : (parse collector).diagnostics = [] := by decide +kernel
  have haccept' : (parse collecting).diagnostics = [] := by decide +kernel
  have hfirst : ((Session.fresh.evalBlock 20 ⟨0⟩ (parse collector).program .null).run .fresh).map
      (fun reply => (reply.1, reply.2.memory.arrays)) = some (.null, #[#[.integer 1]]) := by
    decide +kernel
  have hboth : ((Session.fresh.evalSource 20 (collector ++ ";\n" ++ collecting)).run .fresh).map
      (fun reply => (reply.1.toOption, reply.2.memory.arrays)) =
        some (some (.integer 2), #[#[.integer 1, .integer 2]]) := by
    decide +kernel
  obtain ⟨⟨value, world₁⟩, hblock, harrays⟩ := Option.map_eq_some_iff.mp hfirst
  obtain ⟨⟨result, world₂⟩, hrun, harrays'⟩ := Option.map_eq_some_iff.mp hboth
  obtain ⟨rfl, harrays⟩ := Prod.mk.inj harrays
  obtain ⟨hresult, harrays'⟩ := Prod.mk.inj harrays'
  cases result with
  | error => cases hresult
  | ok value =>
      cases hresult
      have hblock' : Task.run 20 .fresh .fresh (.block ⟨0⟩ (parse collector).program .null) =
          some (.one .null, world₁) := map_one_eq_some.mpr hblock
      obtain ⟨performed, hperforms⟩ := exists_performs_iff.mpr (Task.ends_of_run hblock')
      obtain rfl := hperforms.performed_eq rfl
      obtain ⟨hanswers, hiff⟩ :=
        (evalSource_semicolon .fresh .fresh haccept haccept').1 .null world₁ hperforms rfl
      obtain ⟨value', hanswers', hvalue⟩ := (hiff _ _).mp ⟨20, hrun⟩
      have hstatements : (parse collecting).program.isEmpty = false := by decide +kernel
      rw [hstatements] at hvalue
      cases hvalue
      exact ⟨haccept, haccept', world₁, world₂, hanswers, harrays, hanswers', harrays', ⟨20, hrun⟩⟩

end Monkey.Session
