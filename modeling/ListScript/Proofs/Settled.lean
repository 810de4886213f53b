import ListScript.Proofs.AnyLexicon
import ListScript.Proofs.Bounds

/-!
# Parsers that return

Where a stream uses up characters a parser returns with a bound that is large enough for what is left.
Where the stream stands still, at a symbol that is empty, a parser soon returns as well, or no bound
is large enough: an operator or a bracket that never ends opens one expression inside the other.

* `ReturnsWith good r`, `Returns r` : the result is an answer, or an error that is no defect;
* `Settled lexicon good f n s` : from `s` the parser `f` returns with the bound `n`, or with none
  (`Settled.bind`, `Settled.step`, `Settled.succ`);
* `TokenStream.Poised`, `TokenStream.Moved` : a stream with a token at hand, and what a parser leaves
  that has moved on from it;
* `Parser.returns_advance`, `Parser.returns_skip` and so on : the single steps return;
* `Grammar.endless_of_stuck` : what no bound is large enough for;
* `Grammar.settled_expr_of_stuck`, `Grammar.settled_block_of_stuck` and so on : the parsers of a stream
  that stands still.
-/

namespace ListScript

variable {α β : Type}

/-- An answer of which `good` holds, or an error that is no defect. -/
abbrev ReturnsWith {ε σ : Type} (good : α → σ → Prop) (r : EStateM.Result (Stop ε) σ α) : Prop :=
  Ends good (fun stop _ => ∃ e, stop = .error e) r

/-- An answer, or an error that is no defect. -/
def Returns {ε σ : Type} (r : EStateM.Result (Stop ε) σ α) : Prop := ReturnsWith (fun _ _ => True) r

theorem ReturnsWith.returns {ε σ : Type} {good : α → σ → Prop} {r : EStateM.Result (Stop ε) σ α}
    (h : ReturnsWith good r) : Returns r :=
  h.mono (fun _ _ _ => trivial) fun _ _ h => h

theorem Returns.not_endless {r : EStateM.Result (Stop SyntaxError) TokenStream α} (h : Returns r) :
    ¬ Endless r := by
  rintro ⟨s, hs⟩
  obtain ⟨e, he⟩ := h.of_error hs
  cases he

/-- The empty text is an operator before its operand, or a bracket that opens: one expression could open
inside the other for ever. -/
def Lexicon.Nests (lexicon : Lexicon) : Prop :=
  ∃ kind form, lexicon.symbol? "" = some kind ∧ Rules.standard.opening kind = some form ∧ form ≠ .atom

theorem Lexicon.not_nests {lexicon : Lexicon} (h : lexicon.symbol? "" = none) : ¬ lexicon.Nests := by
  rintro ⟨kind, form, hkind, -⟩
  cases h.symm.trans hkind

/-- With the bound `n` the parser gives an answer of which `good` holds, or an error. Otherwise every
bound cuts it off, and the empty text opens an expression. -/
def Settled (lexicon : Lexicon) (good : α → TokenStream → Prop) (f : Nat → Parser α) (n : Nat)
    (s : TokenStream) : Prop :=
  ReturnsWith good (f n s) ∨ lexicon.Nests ∧ ∀ m, Endless (f m s)

namespace Settled

variable {lexicon : Lexicon} {f : Nat → Parser α} {g : Nat → α → Parser β} {n : Nat} {s : TokenStream}
variable {good good' : α → TokenStream → Prop} {next : β → TokenStream → Prop}

theorem mono (h : Settled lexicon good f n s) (hgood : ∀ a u, good a u → good' a u) :
    Settled lexicon good' f n s :=
  h.imp_left fun h => h.mono hgood fun _ _ h => h

/-- A parser without a bound. -/
theorem of_returns {x : Parser α} (h : ReturnsWith good (x s)) :
    Settled lexicon good (fun _ => x) n s :=
  .inl h

/-- A parser that goes on with what another one has given. -/
theorem bind (hf : Growing f) (hx : Settled lexicon good f n s)
    (hg : ∀ a u, good a u → Settled lexicon next (fun m => g m a) n u) :
    Settled lexicon next (fun m => f m >>= g m) n s := by
  obtain hx | ⟨hnests, hend⟩ := hx
  · cases hr : f n s with
    | error stop u =>
      left
      show ReturnsWith next ((f n >>= g n) s)
      rw [step_bind_eq_error.mpr (.inl hr)]
      exact .error (hx.of_error hr)
    | ok a u =>
      obtain hnext | ⟨hnests, hend⟩ := hg a u (hx.of_ok hr)
      · left
        show ReturnsWith next (EStateM.bind (f n) (g n) s)
        rw [EStateM.bind, hr]
        exact hnext
      · -- with any other bound the first parser is cut off, or it leads to where the second one is
        refine .inr ⟨hnests, fun m => ?_⟩
        by_cases hm : Endless (f m s)
        · exact hm.bind
        · have heq := hf.eq_of_not_endless hm hx.returns.not_endless
          exact .bind_right (heq.trans hr) (hend m)
  · exact .inr ⟨hnests, fun m => (hend m).bind⟩

/-- A parser that goes on with another one that gives no answer. -/
theorem fails (hf : Growing f) (hx : Settled lexicon (fun _ _ => False) f n s) :
    Settled lexicon next (fun m => f m >>= g m) n s :=
  hx.bind hf fun _ _ h => h.elim

/-- A parser that begins with a step. -/
theorem step {x : Parser α} (hx : ReturnsWith good (x s))
    (hg : ∀ a u, good a u → Settled lexicon next (fun m => g m a) n u) :
    Settled lexicon next (fun m => x >>= g m) n s :=
  bind (fun _ _ _ => .refl x) (of_returns hx) hg

theorem step_fails {x : Parser α} (hx : ReturnsWith (fun _ _ => False) (x s)) :
    Settled lexicon next (fun m => x >>= g m) n s :=
  step hx fun _ _ h => h.elim

/-- A parser that calls others with a smaller bound. -/
theorem succ {f' : Nat → Parser α} (hzero : Endless (f' 0 s)) (hsucc : ∀ m, f' (m + 1) s = f m s)
    (h : Settled lexicon good f n s) : Settled lexicon good f' (n + 1) s := by
  refine h.imp (fun h => ?_) fun h => ⟨h.1, fun m => ?_⟩
  · rw [hsucc]
    exact h
  · cases m with
    | zero => exact hzero
    | succ m => rw [hsucc]; exact h.2 m

end Settled

/-! ## Single steps -/

namespace TokenStream

/-- A stream of the lexicon with a token at hand. -/
structure Poised (lexicon : Lexicon) (s : TokenStream) : Prop extends s.Fitting lexicon where
  exists_current : ∃ t, s.current = some t

/-- What a parser leaves that has moved on from `s`, where `j` tokens were left at most. -/
structure Moved (lexicon : Lexicon) (j : Nat) (s u : TokenStream) : Prop where
  poised : u.Poised lexicon
  within : u.Within j
  less : (∀ t, ¬ s.Stuck t) → u.Within (j - 1)

theorem Poised.moved {lexicon : Lexicon} {j : Nat} {s : TokenStream} {t : Token}
    (hs : s.Poised lexicon) (hj : s.Within j) (h : s.Stuck t) : Moved lexicon j s s :=
  ⟨hs, hj, fun hstuck => absurd h (hstuck t)⟩

end TokenStream

namespace Parser
open TokenStream (Moved)

variable {lexicon : Lexicon} {j : Nat} {s u : TokenStream} {t : Token} {kind : Kind}

theorem returns_isAt (ht : s.current = some t) :
    ReturnsWith (fun b u => b = decide (t.kind = kind) ∧ u = s) (isAt kind s) := by
  rw [isAt_eq_ok.mpr ⟨rfl, t, ht, rfl⟩]
  exact .ok ⟨rfl, rfl⟩

theorem returns_unexpected {good : α → TokenStream → Prop} (expected : String) :
    ReturnsWith good (unexpected expected s) :=
  .error ⟨_, rfl⟩

theorem returns_ofExcept {good : TokenStream → Prop} (hs : good s) (x : Except TokenError α) :
    ReturnsWith (fun _ u => good u) (ofExcept x s) := by
  cases x with
  | ok a => exact .ok hs
  | error e => exact .error ⟨_, rfl⟩

/-- The step over the token at hand. -/
theorem returns_advance (hs : s.Poised lexicon) (ht : s.current = some t) (hj : s.Within j) :
    ReturnsWith (fun t' u => t' = t ∧ Moved lexicon j s u) (advance s) := by
  cases hadv : advance s with
  | ok t' u =>
    obtain ⟨ht', ⟨hended, rfl⟩ | ⟨hended, k, hstep⟩⟩ := advance_eq_ok.mp hadv
    · cases ht'.symm.trans ht
      exact .ok ⟨rfl, hs, hj, fun _ => .ended hended⟩
    · cases ht'.symm.trans ht
      by_cases hstuck : ∀ t, ¬ s.Stuck t
      · obtain ⟨next, hnext, -⟩ := TokenStream.current_of_advance hstep
        have hless := hs.within_of_advance hstuck hstep hj
        exact .ok ⟨rfl, ⟨hs.ends_advance.of_ok hstep, next, hnext⟩, hless.mono (Nat.sub_le j 1),
          fun _ => hless⟩
      · push Not at hstuck
        obtain ⟨t', ht'⟩ := hstuck
        cases ht'.advance.symm.trans hstep
        exact .ok ⟨rfl, hs.moved hj ht'⟩
  | error stop u =>
    obtain ⟨-, cause, hstep, rfl⟩ := advance_eq_error ht hadv
    obtain ⟨-, e, rfl⟩ := hs.ends_advance.of_error hstep
    exact .error ⟨_, rfl⟩

theorem returns_discard_advance (hs : s.Poised lexicon) (ht : s.current = some t)
    (hj : s.Within j) :
    ReturnsWith (fun _ u => Moved lexicon j s u) ((discard advance : Parser PUnit) s) :=
  Ends.discard ((returns_advance hs ht hj).mono (fun _ _ h => h.2) fun _ _ h => h)

/-- The step over a token that must have a given kind. -/
theorem returns_expect (hs : s.Poised lexicon) (hj : s.Within j) (kind : Kind) :
    ReturnsWith (fun _ u => Moved lexicon j s u) (expect kind s) := by
  obtain ⟨t, ht⟩ := hs.exists_current
  rw [expect, currentKind_bind ht]
  split
  · exact (returns_advance hs ht hj).mono (fun _ _ h => h.2) fun _ _ h => h
  · exact returns_unexpected _

theorem returns_skip (hs : s.Poised lexicon) (hj : s.Within j) (kind : Kind) :
    ReturnsWith (fun _ u => Moved lexicon j s u) ((discard (expect kind) : Parser PUnit) s) :=
  (returns_expect hs hj kind).discard

theorem returns_expect_of_ne (ht : s.current = some t) (hkind : t.kind ≠ kind) :
    ReturnsWith (fun _ _ => False) (expect kind s) := by
  rw [expect, currentKind_bind ht, if_neg hkind]
  exact returns_unexpected _

theorem returns_ident_of_ne (ht : s.current = some t) (hkind : t.kind ≠ .identifier) :
    ReturnsWith (fun _ _ => False) (ident s) :=
  Ends.bind (returns_expect_of_ne ht hkind) fun _ _ h => h.elim

theorem returns_ident (hs : s.Poised lexicon) (hj : s.Within j) :
    ReturnsWith (fun _ u => Moved lexicon j s u) (ident s) :=
  Ends.bind (returns_expect hs hj .identifier) fun _ _ h => .ok h

/-- A literal or a name is one token. -/
theorem returns_atom {good : TokenStream → Prop} (ht : s.current = some t)
    (h : ReturnsWith (fun _ u => good u) (advance s)) : ReturnsWith (fun _ u => good u) (atom s) := by
  rw [atom, currentKind_bind ht]
  cases t.kind
  case numeral =>
    exact h.bind fun token u hu => Ends.bind (returns_ofExcept hu token.int) fun _ _ h => .ok h
  case boolean =>
    exact h.bind fun token u hu => Ends.bind (returns_ofExcept hu token.bool) fun _ _ h => .ok h
  case identifier => exact h.bind fun token u hu => .ok hu
  all_goals exact returns_unexpected _

/-! ### Steps of a stream that stands still -/

theorem advance_of_stuck (h : s.Stuck t) : advance s = .ok t s :=
  advance_eq_ok.mpr ⟨h.current, .inr ⟨h.ended, _, h.advance⟩⟩

theorem returns_advance_of_stuck (h : s.Stuck t) :
    ReturnsWith (fun t' u => t' = t ∧ u = s) (advance s) := by
  rw [advance_of_stuck h]
  exact .ok ⟨rfl, rfl⟩

theorem discard_expect_of_stuck (h : s.Stuck t) (hkind : t.kind = kind) :
    (discard (expect kind) : Parser PUnit) s = .ok ⟨⟩ s :=
  step_discard_eq_ok.mpr ⟨t, expect_eq_ok.mpr ⟨hkind, advance_of_stuck h⟩⟩

theorem returns_expect_of_stuck (h : s.Stuck t) (hkind : t.kind = kind) :
    ReturnsWith (fun _ u => u = s) ((discard (expect kind) : Parser PUnit) s) := by
  rw [discard_expect_of_stuck h hkind]
  exact .ok rfl

theorem returns_ident_of_stuck (h : s.Stuck t) (hkind : t.kind = .identifier) :
    ReturnsWith (fun _ u => u = s) (ident s) := by
  have hexpect : ReturnsWith (fun _ u => u = s) (expect .identifier s) := by
    rw [expect_eq_ok.mpr ⟨hkind, advance_of_stuck h⟩]
    exact .ok rfl
  exact Ends.bind hexpect fun _ _ h => .ok h

end Parser

/-! ## Streams that stand still -/

namespace Rules

variable {k : Kind}

/-- What begins an expression does not go on with one. -/
theorem continuation_eq_none {form : Opening} (h : standard.opening k = some form) :
    standard.continuation k = none := by
  cases k <;> first | rfl | cases h

end Rules

namespace Grammar
open ListScript.Parser
open TokenStream (Moved)

variable {lexicon : Lexicon} {j n : Nat} {s : TokenStream} {t : Token} {p tight : Power}

theorem endless_zero (s : TokenStream) : Endless ((throw (.defect .endless) : Parser α) s) :=
  ⟨s, rfl⟩

/-- Where a token stands still that opens an expression with another one inside, there is no end. -/
theorem endless_of_stuck {form : Opening} (h : s.Stuck t)
    (hform : Rules.standard.opening t.kind = some form) (hatom : form ≠ .atom) (m : Nat) :
    (∀ p, Endless (expr .standard m p s)) ∧ Endless (opening .standard m form s) ∧
      Endless (exprs .standard m s) := by
  induction m with
  | zero => exact ⟨fun _ => endless_zero s, endless_zero s, endless_zero s⟩
  | succ m ih =>
    obtain ⟨hexpr, hopening, hexprs⟩ := ih
    refine ⟨fun p => ?_, ?_, ?_⟩
    · rw [expr, currentKind_bind h.current, hform]
      exact hopening.bind
    · cases form with
      | atom => exact absurd rfl hatom
      | unary =>
        rw [opening]
        exact .bind_right (advance_of_stuck h) (hexpr _).bind
      | group =>
        rw [opening]
        exact .bind_right (discard_expect_of_stuck h (Rules.eq_openParen_of_group hform))
          (hexpr _).bind
      | list =>
        rw [opening]
        exact .bind_right (discard_expect_of_stuck h (Rules.eq_openBracket_of_list hform))
          hexprs.bind
    · rw [exprs]
      exact (hexpr _).bind

/-- No expression begins here. -/
theorem settled_expr_of_none {good : Expr → TokenStream → Prop} (ht : s.current = some t)
    (hform : Rules.standard.opening t.kind = none) :
    Settled lexicon good (fun m => expr .standard m p) (n + 1) s := by
  left
  show ReturnsWith good (expr .standard (n + 1) p s)
  rw [expr, currentKind_bind ht, hform]
  exact returns_unexpected _

/-- Nothing goes on with an expression here. -/
theorem settled_proceed_of_none {e : Expr} (ht : s.current = some t)
    (hcont : Rules.standard.continuation t.kind = none) :
    Settled lexicon (fun _ u => u = s) (fun m => proceed .standard m p e) (n + 1) s := by
  left
  show ReturnsWith _ (proceed .standard (n + 1) p e s)
  rw [proceed, currentKind_bind ht, hcont]
  exact .ok rfl

/-- An expression where a token stands still is that token, or there is none. -/
theorem settled_expr_of_stuck (hs : s.Poised lexicon) (h : s.Stuck t) :
    Settled lexicon (fun _ u => u = s ∧ ∃ form, Rules.standard.opening t.kind = some form)
      (fun m => expr .standard m p) (n + 2) s := by
  have ht := h.current
  cases hform : Rules.standard.opening t.kind with
  | none => exact settled_expr_of_none ht hform
  | some form =>
    by_cases hatom : form = .atom
    · subst hatom
      have hadvance : ReturnsWith (fun _ u => u = s) (advance s) :=
        (returns_advance_of_stuck h).mono (fun _ _ h => h.2) fun _ _ h => h
      have hopening : Settled lexicon (fun _ u => u = s) (fun m => opening .standard m .atom) (n + 1) s :=
        .inl (returns_atom ht hadvance)
      have hproceed (e : Expr) (u : TokenStream) (hu : u = s) :
          Settled lexicon (fun _ u => u = s) (fun m => proceed .standard m p e) (n + 1) u := by
        subst hu
        exact settled_proceed_of_none ht (Rules.continuation_eq_none hform)
      refine .succ (endless_zero s) (fun m => ?_)
        ((hopening.bind (growing_opening _ _) hproceed).mono fun _ _ h => ⟨h, _, rfl⟩)
      rw [expr, currentKind_bind ht, hform]
    · exact .inr ⟨⟨t.kind, form, hs.symbol?_of_stuck h, hform, hatom⟩,
        fun m => (endless_of_stuck h hform hatom m).1 p⟩

/-- What goes on with an expression where a token stands still has no right operand. -/
theorem settled_proceed_of_stuck {e : Expr} (h : s.Stuck t) :
    Settled lexicon (fun _ u => u = s) (fun m => proceed .standard m p e) (n + 3) s := by
  have ht := h.current
  rcases hcont : Rules.standard.continuation t.kind with _ | ⟨tight, form⟩
  · exact settled_proceed_of_none ht hcont
  · have hnone : Rules.standard.opening t.kind = none := by
      cases hform : Rules.standard.opening t.kind with
      | none => rfl
      | some form => rw [Rules.continuation_eq_none hform] at hcont; cases hcont
    by_cases hlt : p < tight
    · have hright (power : Power) : Settled lexicon (fun _ _ => False)
          (fun m => expr .standard m power) (n + 1) s := settled_expr_of_none ht hnone
      have hoperand : Settled lexicon (fun _ _ => False)
          (fun m => continuation .standard m form e tight) (n + 2) s := by
        cases form with
        | binary =>
          refine .succ (endless_zero s) (fun _ => rfl) ?_
          refine .step (returns_advance_of_stuck h) fun t' u hu => ?_
          rw [hu.2]
          exact (hright tight).fails (growing_expr _ _)
        | cons =>
          refine .succ (endless_zero s) (fun _ => rfl) ?_
          refine .step (returns_expect_of_stuck h (Rules.eq_cons_of_cons hcont)) fun _ u hu => ?_
          rw [hu]
          exact (hright .lowest).fails (growing_expr _ _)
      refine .succ (endless_zero s) (fun m => ?_)
        (hoperand.fails (g := fun m => proceed .standard m p) (growing_continuation _ _ _ _))
      rw [proceed, currentKind_bind ht, hcont]
      simp only [if_pos hlt]
    · refine .succ (endless_zero s) (fun m => ?_) (.of_returns (x := pure e) (.ok rfl))
      rw [proceed, currentKind_bind ht, hcont]
      simp only [if_neg hlt]

/-- Several expressions where a token stands still are one. -/
theorem settled_exprs_of_stuck (hs : s.Poised lexicon) (h : s.Stuck t) :
    Settled lexicon (fun _ u => u = s) (fun m => exprs .standard m) (n + 3) s := by
  have hexpr := settled_expr_of_stuck (p := .lowest) (n := n) hs h
  refine .succ (endless_zero s) (fun _ => rfl)
    (hexpr.bind (growing_expr _ _) fun item u hu => ?_)
  obtain ⟨rfl, form, hform⟩ := hu
  refine .step (returns_isAt h.current) fun more v hv => ?_
  obtain ⟨rfl, rfl⟩ := hv
  have hcomma : t.kind ≠ .comma := by
    intro hk
    rw [hk] at hform
    cases hform
  simp only [decide_eq_true_eq, if_neg hcomma]
  exact .of_returns (.ok rfl)

/-- No statement is read where a token stands still: none has two tokens of one kind at its beginning,
and none has an expression that begins like a statement. -/
theorem settled_stmt_of_stuck (h : s.Stuck t) :
    Settled lexicon (fun _ _ => False) (fun m => stmt .standard m) (n + 3) s := by
  have ht := h.current
  cases hform : Rules.standard.form t.kind with
  | none =>
    left
    show ReturnsWith _ (stmt .standard (n + 3) s)
    rw [stmt, currentKind_bind ht, hform]
    exact returns_unexpected _
  | some form =>
    have hk := Rules.eq_opener_of_form hform
    have hstmt : Settled lexicon (fun _ _ => False) (fun m => stmtOf .standard m form) (n + 2) s := by
      cases form with
      | declare =>
        refine .succ (endless_zero s) (fun _ => rfl) ?_
        refine .step (returns_expect_of_stuck h hk) fun _ u hu => ?_
        subst hu
        exact .step_fails (returns_ident_of_ne ht (by rw [hk]; decide))
      | assign =>
        refine .succ (endless_zero s) (fun _ => rfl) ?_
        refine .step (returns_ident_of_stuck h hk) fun _ u hu => ?_
        subst hu
        exact .step_fails (returns_expect_of_ne ht (by rw [hk]; decide)).discard
      | print =>
        refine .succ (endless_zero s) (fun _ => rfl) ?_
        refine .step (returns_expect_of_stuck h hk) fun _ u hu => ?_
        subst hu
        exact (settled_expr_of_none ht (by rw [hk]; rfl)).fails (growing_expr _ _)
      | forEach =>
        refine .succ (endless_zero s) (fun _ => rfl) ?_
        refine .step (returns_expect_of_stuck h hk) fun _ u hu => ?_
        subst hu
        exact .step_fails (returns_ident_of_ne ht (by rw [hk]; decide))
    refine .succ (endless_zero s) (fun m => ?_) hstmt
    rw [stmt, currentKind_bind ht, hform]

/-- Nor are several. -/
theorem settled_block_of_stuck {good : Block → TokenStream → Prop} (h : s.Stuck t) :
    Settled lexicon good (fun m => block .standard m) (n + 4) s :=
  .succ (endless_zero s) (fun _ => rfl) ((settled_stmt_of_stuck h).fails (growing_stmt _))

end Grammar

end ListScript
