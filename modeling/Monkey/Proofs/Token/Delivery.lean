import Mathlib.Data.List.GetD
import Monkey.Proofs.Token

/-! # Tokens one at a time

A reader can be asked for its next token in two ways, and it may be asked in both, in any order.
Every token that it delivers is the next of the source text, until the end marker is delivered again
and again. Only an iteration comes to an end, and only once it has delivered the end marker itself.
-/

namespace Monkey

namespace Tokens

/-- The token at a place of the sequence. Behind the last token, that is the end marker. -/
def nth (tokens : Tokens) (place : Nat) : Token :=
  tokens.front.getD place tokens.last

variable (tokens : Tokens) (place : Nat)

theorem nth_zero : tokens.nth 0 = tokens.current := by
  obtain ⟨front, last, hlast⟩ := tokens
  cases front with
  | nil => rfl
  | cons t front => rfl

theorem nth_advance : tokens.advance.nth place = tokens.nth (place + 1) := by
  obtain ⟨front, last, hlast⟩ := tokens
  cases front with
  | nil => rfl
  | cons t front => rfl

theorem getElem?_toList_min :
    tokens.toList[min (place + 1) tokens.toList.length - 1]? = some (tokens.nth place) := by
  have hlength : tokens.toList.length = tokens.front.length + 1 := by simp [toList]
  rw [hlength, Nat.add_min_add_right, Nat.add_sub_cancel]
  rcases Nat.lt_or_ge place tokens.front.length with hlt | hle
  · rw [Nat.min_eq_left (Nat.le_of_lt hlt), toList, List.getElem?_append_left hlt, nth,
      List.getD_eq_getElem _ _ hlt, List.getElem?_eq_getElem hlt]
  · rw [Nat.min_eq_right hle, toList, List.getElem?_append_right (Nat.le_refl _), nth,
      List.getD_eq_default _ _ hle, Nat.sub_self]
    rfl

end Tokens

namespace Token.Reader

/-- A way of asking for a token: for the next one in any case, or for the next of an iteration. -/
inductive Request
  | token
  | item
deriving DecidableEq, Repr

/-- The answer to a request. -/
def answer (r : Reader) : Request → Option Token × Reader
  | .token => (some r.next.1, r.next.2)
  | .item => r.next?

/-- The answers to requests, one after the other. -/
def answers (r : Reader) : List Request → List (Option Token)
  | [] => []
  | request :: requests => (r.answer request).1 :: (r.answer request).2.answers requests

variable {r : Reader} {request : Request} {requests : List Request} {place : Nat} {t : Token}

/-! ## One request -/

theorem skipSpace_of_nil (hinput : r.input = []) : r.skipSpace = r := by
  obtain ⟨position, input, finished⟩ := r
  obtain rfl : input = [] := hinput
  rfl

/-- Whether an iteration has ended says nothing about the tokens that are left. -/
theorem tokens_withFinished (r : Reader) (finished : Bool) :
    tokens { r with finished } = r.tokens := by
  induction r using Reader.tokens.induct with
  | case1 r hnil =>
      have hnil' : (skipSpace { r with finished }).input = [] := hnil
      rw [tokens_of_nil hnil, tokens_of_nil hnil']
      rfl
  | case2 r c cs hcons x hlt ih =>
      have hcons' : (skipSpace { r with finished }).input = c :: cs := hcons
      rw [tokens_of_cons hcons, tokens_of_cons hcons']
      exact congrArg (·.prepend [x.toToken r.skipSpace.position]) ih

theorem fst_next (r : Reader) : r.next.1 = r.tokens.current := by
  cases hinput : r.skipSpace.input with
  | nil => simp [next, hinput, tokens_of_nil hinput, Tokens.current]
  | cons c cs => simp [next, hinput, tokens_of_cons hinput]

/-- Where the end of the source has been reached, asking again changes nothing. -/
theorem tokens_next (r : Reader) : r.next.2.tokens = r.tokens.advance := by
  cases hinput : r.skipSpace.input with
  | nil =>
      have hnext : r.next.2 = r.skipSpace := by simp [next, hinput]
      rw [hnext, tokens_congr (skipSpace_of_nil hinput), tokens_of_nil hinput]
      rfl
  | cons c cs =>
      have hnext : r.next.2 = r.skipSpace.consume (Lexeme.atFront c cs) cs := by simp [next, hinput]
      rw [hnext, tokens_of_cons hinput]
      rfl

theorem finished_next (r : Reader) : r.next.2.finished = r.finished := by
  unfold next
  dsimp only
  split
  · rfl
  · rfl

theorem next?_of_finished (hfinished : r.finished = true) : r.next? = (none, r) :=
  if_pos hfinished

theorem next?_of_not_finished (hfinished : r.finished = false) :
    r.next? = (some r.next.1, { r.next.2 with finished := r.next.1.kind == .eof }) := by
  rw [next?, if_neg (by simp [hfinished])]

/-- A token that is delivered is the next of those that are left. -/
theorem answer_some (hanswer : (r.answer request).1 = some t) :
    t = r.tokens.current ∧ (r.answer request).2.tokens = r.tokens.advance := by
  cases request with
  | token =>
      cases hanswer
      exact ⟨r.fst_next, r.tokens_next⟩
  | item =>
      cases hfinished : r.finished with
      | true =>
          rw [answer, next?_of_finished hfinished] at hanswer
          cases hanswer
      | false =>
          rw [answer, next?_of_not_finished hfinished] at hanswer ⊢
          cases hanswer
          exact ⟨r.fst_next, (tokens_withFinished _ _).trans r.tokens_next⟩

theorem answer_eq_none_iff :
    (r.answer request).1 = none ↔ request = .item ∧ r.finished = true := by
  cases request with
  | token => simp [answer]
  | item => cases hfinished : r.finished <;> simp [answer, next?, hfinished]

theorem answer_none (hanswer : (r.answer request).1 = none) : (r.answer request).2 = r := by
  obtain ⟨rfl, hfinished⟩ := answer_eq_none_iff.mp hanswer
  rw [answer, next?_of_finished hfinished]

/-- The iteration ends with the end marker that it has delivered itself. -/
theorem finished_answer : (r.answer request).2.finished = true ↔
    r.finished = true ∨ request = .item ∧ ∃ t, (r.answer request).1 = some t ∧ t.kind = .eof := by
  cases request with
  | token => simp [answer, r.finished_next]
  | item => cases hfinished : r.finished <;> simp [answer, next?, hfinished]

/-! ## Any number of requests -/

theorem length_answers (r : Reader) (requests : List Request) :
    (r.answers requests).length = requests.length := by
  induction requests generalizing r with
  | nil => rfl
  | cons request requests ih => rw [answers, List.length_cons, List.length_cons, ih]

/-- The tokens that are delivered are those that are left to read, in their order. -/
theorem eq_nth_of_answers (hanswer : (r.answers requests)[place]? = some (some t)) :
    t = r.tokens.nth (((r.answers requests).take place).countP Option.isSome) := by
  induction requests generalizing r place with
  | nil => cases hanswer
  | cons request requests ih =>
      rw [answers] at hanswer ⊢
      cases place with
      | zero =>
          obtain ⟨rfl, -⟩ := answer_some (Option.some.inj hanswer)
          exact r.tokens.nth_zero.symm
      | succ place =>
          rw [List.take_succ_cons, List.countP_cons, ih hanswer]
          cases hfirst : (r.answer request).1 with
          | none =>
              rw [answer_none hfirst]
              rfl
          | some first =>
              rw [(answer_some hfirst).2, Tokens.nth_advance]
              rfl

/-- The request at the place was for an item, and the answer to it was an end marker. -/
def EndsAt (requests : List Request) (answers : List (Option Token)) (place : Nat) : Prop :=
  requests[place]? = some .item ∧ ∃ t, answers[place]? = some (some t) ∧ t.kind = .eof

/-- Only an iteration that has delivered the end marker has no answer. -/
theorem answers_eq_none_iff (hrequest : requests[place]? = some request) :
    (r.answers requests)[place]? = some none ↔ request = .item ∧
      (r.finished = true ∨ ∃ earlier < place, EndsAt requests (r.answers requests) earlier) := by
  induction requests generalizing r place with
  | nil => cases hrequest
  | cons first requests ih =>
      cases place with
      | zero =>
          obtain rfl : first = request := Option.some.inj hrequest
          simp [answers, answer_eq_none_iff]
      | succ place =>
          have hfirst : EndsAt (first :: requests) (r.answers (first :: requests)) 0 ↔
              first = .item ∧ ∃ t, (r.answer first).1 = some t ∧ t.kind = .eof := by
            simp [EndsAt, answers]
          have hlater (earlier : Nat) :
              EndsAt (first :: requests) (r.answers (first :: requests)) (earlier + 1) ↔
                EndsAt requests ((r.answer first).2.answers requests) earlier := Iff.rfl
          rw [Nat.exists_lt_succ_left, hfirst, ← or_assoc, ← finished_answer]
          exact ih hrequest

/-- Whatever a reader of a source text is asked for: it delivers the tokens of the text in their
order, and the last of them for ever. It delivers nothing only as part of an iteration that has
delivered an end marker before. -/
theorem answers_ofSource (source : String) (requests : List Request) :
    let tokens := (tokenize source).toList
    let answers := (Reader.ofSource source).answers requests
    answers.length = requests.length ∧
      ∀ place answer, answers[place]? = some answer →
        (answer = none ↔ requests[place]? = some .item ∧
          ∃ earlier < place, EndsAt requests answers earlier) ∧
        ∀ t, answer = some t →
          tokens[min ((answers.take (place + 1)).countP Option.isSome) tokens.length - 1]? =
            some t := by
  intro tokens answers
  have hlength : answers.length = requests.length := length_answers _ requests
  refine ⟨hlength, fun place answer hanswer => ⟨?_, ?_⟩⟩
  · have hlt : place < requests.length := by
      rw [← hlength]
      exact (List.getElem?_eq_some_iff.mp hanswer).1
    have hrequest := List.getElem?_eq_getElem hlt
    have hnone : answers[place]? = some none ↔ requests[place] = .item ∧
        (false = true ∨ ∃ earlier < place, EndsAt requests answers earlier) :=
      answers_eq_none_iff hrequest
    rw [hanswer, Option.some_inj] at hnone
    rw [hrequest, Option.some_inj, hnone, or_iff_right Bool.false_ne_true]
  · rintro t rfl
    have hcount : (answers.take (place + 1)).countP Option.isSome =
        (answers.take place).countP Option.isSome + 1 := by
      rw [List.take_add_one, hanswer, List.countP_append]
      rfl
    rw [hcount, Tokens.getElem?_toList_min]
    exact congrArg some (eq_nth_of_answers hanswer).symm

/-- The end marker is delivered twice before the iteration delivers it too and ends. -/
theorem answers_ofSource_pastEnd :
    (Reader.ofSource "x").answers [.item, .token, .token, .item, .item] =
        [some ⟨.ident, "x", ⟨1, 1⟩⟩, some ⟨.eof, "", ⟨1, 2⟩⟩, some ⟨.eof, "", ⟨1, 2⟩⟩,
          some ⟨.eof, "", ⟨1, 2⟩⟩, none] ∧
      ∃ earlier < 4, EndsAt [.item, .token, .token, .item, .item]
        ((Reader.ofSource "x").answers [.item, .token, .token, .item, .item]) earlier := by
  have hanswers : (Reader.ofSource "x").answers [.item, .token, .token, .item, .item] =
      [some ⟨.ident, "x", ⟨1, 1⟩⟩, some ⟨.eof, "", ⟨1, 2⟩⟩, some ⟨.eof, "", ⟨1, 2⟩⟩,
        some ⟨.eof, "", ⟨1, 2⟩⟩, none] := by
    decide +kernel
  have hlast := (answers_ofSource "x" [.item, .token, .token, .item, .item]).2 4 none
    (by rw [hanswers]; rfl)
  exact ⟨hanswers, (hlast.1.mp rfl).2⟩

end Token.Reader

end Monkey
