import Monkey.Proofs.Grammar.Acceptance
import Monkey.Proofs.Program.Copies
import Monkey.Proofs.Program.Recovery

/-! # Programs behind one another

A program that ends with a semicolon is read in the same way whatever follows, also where some of
its statements cannot be read, provided that reading it alone did not fail at its end marker. What
follows is read like a program of its own, on the lines where it stands (`parse_semicolon`).
-/

namespace Monkey

open Rule Grammar

namespace Tokens

variable {lines : Nat} {tokens behind rest rest' middle : Tokens} {segments more : List Segment}

/-! ## Skipping in a copy -/

theorem kind_copy (hfront : tokens.front ≠ []) :
    (tokens.copy lines behind).kind = tokens.kind := by
  rw [kind, current_copy_of_ne_nil hfront, Token.kind_down, kind]

/-- Skipping to a boundary finds a copy of the same boundary, or there was none before the end
marker and the first one behind is found. -/
theorem synchronize_copy (hsingle : ∀ t ∈ tokens.front, t.kind ≠ .eof) :
    (tokens.copy lines behind).synchronize = tokens.synchronize.copy lines behind ∨
      tokens.synchronize.kind = .eof ∧
        (tokens.copy lines behind).synchronize = behind.synchronize := by
  induction hlength : tokens.front.length generalizing tokens with
  | zero =>
      have hnil := List.eq_nil_of_length_eq_zero hlength
      have heof := kind_of_front_eq_nil hnil
      rw [copy_of_nil hnil, synchronize_of_eof heof]
      exact .inr ⟨heof, rfl⟩
  | succ count ih =>
      have hfront : tokens.front ≠ [] := List.ne_nil_of_length_eq_add_one hlength
      have hkind : (tokens.copy lines behind).kind = tokens.kind := kind_copy hfront
      have heof : tokens.kind ≠ .eof := fun heof => hfront (front_eq_nil_of_eof hsingle heof)
      by_cases hsemicolon : tokens.kind = .semicolon
      · rw [synchronize_of_semicolon hsemicolon, synchronize_of_semicolon (hkind.trans hsemicolon),
          advance_copy hfront]
        exact .inl rfl
      · rw [synchronize_of_kind heof hsemicolon,
          synchronize_of_kind (hkind.trans_ne heof) (hkind.trans_ne hsemicolon),
          advance_copy hfront]
        exact ih (fun t ht => hsingle t (tokens.isSuffix_advance.mem ht)) (by simp [hlength])

/-! ## Segments of a copy -/

theorem alikeAt_topStatement (hcopied : Copied lines behind tokens) :
    AlikeAt lines behind tokens.topStatement (tokens.copy lines behind).topStatement tokens := by
  have halike := alike_expression_block lines behind tokens.front.length
  rw [topStatement, topStatement, length_front_copy]
  exact (Alike.statement (halike.1 _) halike.2).alikeAt tokens hcopied (Nat.le_refl _)

/-! ## What is read, segment by segment -/

theorem parseProgram_of_eof (heof : tokens.kind = .eof) : tokens.parseProgram.1 = ⟨[], []⟩ := by
  rw [(Segmented.done heof).parseProgram_eq]
  rfl

theorem parseProgram_of_semicolon (hsemicolon : tokens.kind = .semicolon) :
    tokens.parseProgram.1 = tokens.advance.parseProgram.1 := by
  obtain ⟨segments, rest, hsegmented⟩ := tokens.advance.exists_segmented
  rw [(Segmented.separator hsemicolon hsegmented).parseProgram_eq, hsegmented.parseProgram_eq]
  rfl

theorem parseProgram_of_statement {s : Stmt} (heof : tokens.kind ≠ .eof)
    (hsemicolon : tokens.kind ≠ .semicolon)
    (houtcome : tokens.topStatement.outcome tokens = (.ok s, middle)) :
    tokens.parseProgram.1 =
      ⟨s :: middle.parseProgram.1.program, middle.parseProgram.1.diagnostics⟩ := by
  obtain ⟨segments, rest, hsegmented⟩ := middle.exists_segmented
  rw [(Segmented.statement heof hsemicolon houtcome hsegmented).parseProgram_eq,
    hsegmented.parseProgram_eq]
  rfl

theorem parseProgram_of_abandoned {d : Diagnostic} (heof : tokens.kind ≠ .eof)
    (hsemicolon : tokens.kind ≠ .semicolon)
    (houtcome : tokens.topStatement.outcome tokens = (.error d, middle)) :
    tokens.parseProgram.1 = ⟨middle.synchronize.parseProgram.1.program,
      d :: middle.synchronize.parseProgram.1.diagnostics⟩ := by
  obtain ⟨segments, rest, hsegmented⟩ := middle.synchronize.exists_segmented
  rw [(Segmented.abandoned heof hsemicolon houtcome hsegmented).parseProgram_eq,
    hsegmented.parseProgram_eq]
  rfl

/-- The tokens of a statement, with a semicolon behind them. -/
theorem parseProgram_of_derived {ts : List Token} {s : Stmt} (hs : Statement ts s)
    (hsemicolon : rest.kind = .semicolon) : (rest.prepend ts).parseProgram.1 =
      ⟨s :: rest.parseProgram.1.program, rest.parseProgram.1.diagnostics⟩ := by
  have hfollows : Follows .lowest rest := .of_kind hsemicolon rfl (by decide)
  have hafter : afterSemicolon rest = rest.advance := if_pos hsemicolon
  obtain ⟨segments, rest', hsegmented⟩ := (afterSemicolon rest).exists_segmented
  rw [(hs.segmented (fun _ => hfollows) hsegmented).parseProgram_eq,
    parseProgram_of_semicolon hsemicolon, ← hafter, hsegmented.parseProgram_eq]
  rfl

/-! ## Programs in a copy -/

/-- A copy in which more may follow: it starts with a semicolon, the original stays on its lines,
and nothing was found wrong at its end marker. -/
structure Continues (lines : Nat) (behind tokens : Tokens) : Prop where
  lines_eq : lines = 0
  kind_eq : behind.kind = .semicolon
  not_isAt : ∀ d ∈ tokens.parseProgram.1.diagnostics, ¬ d.IsAt tokens.last

theorem Continues.of_isSuffix (h : Continues lines behind tokens) (hrest : rest.IsSuffix tokens)
    (hsubset : rest.parseProgram.1.diagnostics ⊆ tokens.parseProgram.1.diagnostics) :
    Continues lines behind rest := by
  refine ⟨h.lines_eq, h.kind_eq, fun d hd => ?_⟩
  have hlast : rest.last = tokens.last := by
    obtain ⟨ts, rfl⟩ := hrest
    rfl
  rw [hlast]
  exact h.not_isAt d (hsubset hd)

/-- A statement that was read up to the end marker is also read where a semicolon follows. -/
theorem parseProgram_of_end {s : Stmt} (hreads : tokens.topStatement.Reads tokens s middle)
    (hmiddle : middle.front = []) (hsemicolon : behind.kind = .semicolon) :
    (tokens.copy 0 behind).parseProgram.1 =
      ⟨s :: behind.parseProgram.1.program, behind.parseProgram.1.diagnostics⟩ := by
  obtain ⟨ts, middle', rfl, hs, -, rfl | ⟨t, ht, rfl⟩⟩ := topStatement_sound hreads
  · have hcopy : (middle'.prepend ts).copy 0 behind = behind.prepend ts := by
      simp [copy, hmiddle]
    rw [hcopy, parseProgram_of_derived hs hsemicolon]
  · have hcopy : ((middle.prepend [t]).prepend ts).copy 0 behind =
        (behind.prepend [t]).prepend ts := by
      simp [copy, hmiddle]
    have hkind : (behind.prepend [t]).kind = .semicolon := ht
    rw [hcopy, parseProgram_of_derived hs hkind, parseProgram_of_semicolon hkind,
      advance_prepend_cons, prepend_nil]

/-- Behind a boundary that was not found in the copied tokens, reading goes on with what follows. -/
theorem parseProgram_synchronize (hbehind : behind.kind = .eof ∨ behind.kind = .semicolon) :
    behind.synchronize.parseProgram.1 = behind.parseProgram.1 := by
  rcases hbehind with heof | hsemicolon
  · rw [synchronize_of_eof heof]
  · rw [synchronize_of_semicolon hsemicolon, parseProgram_of_semicolon hsemicolon]

/-- A copy is read like the original, and then what stands behind it is read. -/
theorem Segmented.parseProgram_copy (h : Segmented tokens segments rest)
    (hcopied : Copied lines behind tokens)
    (hopen : behind.front ≠ [] → Continues lines behind tokens) :
    (tokens.copy lines behind).parseProgram.1 =
      ⟨tokens.parseProgram.1.program ++ behind.parseProgram.1.program,
        tokens.parseProgram.1.diagnostics.map (·.down lines) ++
          behind.parseProgram.1.diagnostics⟩ := by
  have hbehind : behind.kind = .eof ∨ behind.kind = .semicolon := by
    by_cases hnil : behind.front = []
    · exact .inl (kind_of_front_eq_nil hnil)
    · exact .inr (hopen hnil).kind_eq
  induction h with
  | @done tokens heof =>
      rw [copy_of_nil (front_eq_nil_of_eof hcopied.kind_ne heof), parseProgram_of_eof heof]
      rfl
  | @separator tokens rest segments hsemicolon _ ih =>
      have hfront := front_ne_nil (hsemicolon.trans_ne (by decide))
      have hsame := parseProgram_of_semicolon hsemicolon
      have hadvance := isSuffix_advance tokens
      rw [parseProgram_of_semicolon ((kind_copy hfront).trans hsemicolon), advance_copy hfront,
        hsame]
      refine ih (hcopied.of_isSuffix hadvance) fun hne => (hopen hne).of_isSuffix hadvance ?_
      rw [hsame]
      exact List.Subset.refl _
  | @statement tokens middle rest s segments heof hsemicolon houtcome hrest ih =>
      have hfront := front_ne_nil heof
      have hkind : (tokens.copy lines behind).kind = tokens.kind := kind_copy hfront
      have hsuffix := isSuffix_of_topStatement houtcome
      have hparsed := parseProgram_of_statement heof hsemicolon houtcome
      have halike := alikeAt_topStatement hcopied
      rw [AlikeAt, houtcome] at halike
      rcases halike with hcopy | ⟨hmiddle, hne⟩
      · have hagain := ih (hcopied.of_isSuffix hsuffix) fun hne =>
          (hopen hne).of_isSuffix hsuffix (by rw [hparsed]; exact List.Subset.refl _)
        rw [parseProgram_of_statement (hkind.trans_ne heof) (hkind.trans_ne hsemicolon) hcopy,
          hparsed, hagain]
        rfl
      · -- The statement was read up to the end marker, where the copy goes on with a semicolon.
        obtain ⟨rfl, hsemicolon', -⟩ := hopen hne
        rw [parseProgram_of_end houtcome hmiddle hsemicolon', hparsed,
          parseProgram_of_eof (kind_of_front_eq_nil hmiddle)]
        rfl
  | @abandoned tokens middle rest d segments heof hsemicolon houtcome hrest ih =>
      have hfront := front_ne_nil heof
      have hkind : (tokens.copy lines behind).kind = tokens.kind := kind_copy hfront
      have hmiddle := isSuffix_of_topStatement houtcome
      have hsuffix := middle.isSuffix_synchronize.trans hmiddle
      have hparsed := parseProgram_of_abandoned heof hsemicolon houtcome
      have halike := alikeAt_topStatement hcopied
      rw [AlikeAt, houtcome] at halike
      rcases halike with hcopy | ⟨hat, hne⟩
      · rw [parseProgram_of_abandoned (hkind.trans_ne heof) (hkind.trans_ne hsemicolon) hcopy,
          hparsed]
        rcases synchronize_copy (hcopied.of_isSuffix hmiddle).kind_ne with hskip | ⟨hend, hskip⟩
        · have hagain := ih (hcopied.of_isSuffix hsuffix) fun hne =>
            (hopen hne).of_isSuffix hsuffix (by rw [hparsed]; exact List.subset_cons_self _ _)
          rw [hskip, hagain]
          rfl
        · rw [hskip, parseProgram_synchronize hbehind, parseProgram_of_eof hend]
          rfl
      · -- It was abandoned at the end marker, which is excluded where the copy goes on.
        obtain ⟨ts, rfl⟩ := hmiddle
        refine absurd hat ((hopen hne).not_isAt d ?_)
        rw [hparsed]
        exact List.mem_cons_self

/-- Tokens, a semicolon, and other tokens further down. -/
theorem parseProgram_semicolon {tokens' : Tokens} {t : Token}
    (hsingle : ∀ t ∈ tokens.front, t.kind ≠ .eof) (hsingle' : ∀ t ∈ tokens'.front, t.kind ≠ .eof)
    (hend : ∀ d ∈ tokens.parseProgram.1.diagnostics, ¬ d.IsAt tokens.last)
    (ht : t.kind = .semicolon) (lines : Nat) :
    ((tokens'.down lines).prepend (tokens.front ++ [t])).parseProgram.1 =
      ⟨tokens.parseProgram.1.program ++ tokens'.parseProgram.1.program,
        tokens.parseProgram.1.diagnostics ++
          tokens'.parseProgram.1.diagnostics.map (·.down lines)⟩ := by
  have hdown : (tokens'.down lines).parseProgram.1 = ⟨tokens'.parseProgram.1.program,
      tokens'.parseProgram.1.diagnostics.map (·.down lines)⟩ := by
    obtain ⟨segments, rest, hsegmented⟩ := tokens'.exists_segmented
    have hcopy : tokens'.down lines =
        tokens'.copy lines ⟨[], tokens'.last.down lines, tokens'.last_eof⟩ := by
      simp [copy, prepend, down]
    have hnone : (Tokens.mk [] (tokens'.last.down lines) tokens'.last_eof).parseProgram.1 =
        ⟨[], []⟩ := parseProgram_of_eof (kind_of_front_eq_nil rfl)
    rw [hcopy, hsegmented.parseProgram_copy ⟨hsingle', fun _ => rfl⟩ (fun hne => absurd rfl hne),
      hnone]
    simp
  have hsemicolon : ((tokens'.down lines).prepend [t]).kind = .semicolon := ht
  have hcopy : (tokens'.down lines).prepend (tokens.front ++ [t]) =
      tokens.copy 0 ((tokens'.down lines).prepend [t]) := by
    simp [copy]
  obtain ⟨segments, rest, hsegmented⟩ := tokens.exists_segmented
  rw [hcopy, hsegmented.parseProgram_copy ⟨hsingle, fun hnil => absurd hnil (by simp)⟩
    (fun _ => ⟨rfl, hsemicolon, hend⟩), parseProgram_of_semicolon hsemicolon, advance_prepend_cons,
    prepend_nil, hdown]
  simp

end Tokens

/-! ## Source texts -/

/-- Two source texts with a semicolon and a line feed between them, the first of which has no open
string and fails nowhere at its end: the statements of both and the diagnostics of both, those of
the second on the lines where they now stand. -/
theorem parse_semicolon {source : String}
    (hclosed : ∀ t ∈ (Token.tokenize source).front, ¬ t.Unterminated)
    (hend : ∀ d ∈ (parse source).diagnostics, ¬ d.IsAt (Token.tokenize source).last)
    (source' : String) :
    parse (source ++ ";\n" ++ source') =
      ⟨(parse source).program ++ (parse source').program,
        (parse source).diagnostics ++
          (parse source').diagnostics.map (·.down (1 + source.toList.count '\n'))⟩ := by
  have hsingle (source : String) : ∀ t ∈ (Token.tokenize source).front, t.kind ≠ .eof :=
    fun t ht => (Token.lexical_of_mem_tokenize source t ht).kind_ne
  rw [parse, Token.tokenize_semicolon hclosed]
  exact Tokens.parseProgram_semicolon (hsingle source) (hsingle source') hend rfl _

/-- Two lines, the first of which is no statement. -/
def faultyLines : String := "let = 1;\nlet a = [1, 2]"

/-- Two lines, the second of which is no statement. -/
def furtherLines : String := "a[0];\n@ b"

theorem parse_semicolon_faultyLines :
    (∀ t ∈ (Token.tokenize faultyLines).front, ¬ t.Unterminated) ∧
      (∀ d ∈ (parse faultyLines).diagnostics, ¬ d.IsAt (Token.tokenize faultyLines).last) ∧
      (parse (faultyLines ++ ";\n" ++ furtherLines)).program =
        (parse faultyLines).program ++ (parse furtherLines).program ∧
      (parse (faultyLines ++ ";\n" ++ furtherLines)).diagnostics =
        [⟨.unexpected .ident .assign, ⟨1, 5⟩⟩, ⟨.illegal "@", ⟨4, 1⟩⟩] := by
  have hclosed : ∀ t ∈ (Token.tokenize faultyLines).front, ¬ t.Unterminated := by decide +kernel
  have hfirst : (parse faultyLines).diagnostics = [⟨.unexpected .ident .assign, ⟨1, 5⟩⟩] := by
    decide +kernel
  have hsecond : (parse furtherLines).diagnostics = [⟨.illegal "@", ⟨2, 1⟩⟩] := by decide +kernel
  have hlast : (Token.tokenize faultyLines).last.position = ⟨2, 15⟩ := by decide +kernel
  have hend : ∀ d ∈ (parse faultyLines).diagnostics,
      ¬ d.IsAt (Token.tokenize faultyLines).last := by
    intro d hd hat
    rw [hfirst, List.mem_singleton] at hd
    have hposition := hat.1
    rw [hd, hlast] at hposition
    exact absurd hposition (by decide)
  refine ⟨hclosed, hend, ?_⟩
  rw [parse_semicolon hclosed hend, hfirst, hsecond]
  exact ⟨rfl, rfl⟩

end Monkey
