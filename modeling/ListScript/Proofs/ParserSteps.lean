import ListScript.Proofs.StreamSteps

/-!
# What a parser has done that gives a tree

For each function of the grammar, the steps of which its answer consists.

* `Grammar.expr_eq_ok`, `Grammar.proceed_eq_ok` : expressions, and how they go on;
* `Grammar.opening_unary_eq_ok`, `Grammar.continuation_binary_eq_ok` and so on : their forms;
* `Grammar.exprs_eq_ok`, `Grammar.stmt_eq_ok`, `Grammar.stmtOf_declare_eq_ok` and so on,
  `Grammar.block_eq_ok` : lists, statements and blocks.
-/

namespace ListScript

theorem Token.int_eq_ok {t : Token} {value : Int64} :
    t.int = .ok value ↔ t.literal = some (.int value) := by
  unfold Token.int
  rcases t.literal with _ | v | v <;> simp

theorem Token.bool_eq_ok {t : Token} {value : Bool} :
    t.bool = .ok value ↔ t.literal = some (.bool value) := by
  unfold Token.bool
  rcases t.literal with _ | v | v <;> simp

namespace Grammar
open ListScript.Parser

variable {rules : Rules} {n : Nat} {p tight : Power} {s s' : TokenStream} {e left : Expr}

/-! ## Expressions -/

theorem expr_eq_ok : expr rules (n + 1) p s = .ok e s' ↔ ∃ t form left u,
    s.current = some t ∧ rules.opening t.kind = some form ∧ opening rules n form s = .ok left u ∧
      proceed rules n p left u = .ok e s' := by
  rw [expr]
  simp only [step_bind_eq_ok, currentKind_eq_ok]
  constructor
  · rintro ⟨k, u, ⟨rfl, t, ht, rfl⟩, h⟩
    cases hform : rules.opening t.kind with
    | some form =>
      rw [hform] at h
      obtain ⟨left, v, hleft, hrest⟩ := step_bind_eq_ok.mp h
      exact ⟨t, form, left, v, ht, hform, hleft, hrest⟩
    | none =>
      rw [hform] at h
      cases h
  · rintro ⟨t, form, left, u, ht, hform, hleft, hrest⟩
    refine ⟨t.kind, s, ⟨rfl, t, ht, rfl⟩, ?_⟩
    rw [hform]
    exact step_bind_eq_ok.mpr ⟨left, u, hleft, hrest⟩

theorem proceed_eq_ok : proceed rules (n + 1) p left s = .ok e s' ↔ ∃ t, s.current = some t ∧
    ((∃ tight form next u, rules.continuation t.kind = some (tight, form) ∧ p < tight ∧
        continuation rules n form left tight s = .ok next u ∧
        proceed rules n p next u = .ok e s') ∨
      ¬ p < rules.power t.kind ∧ e = left ∧ s' = s) := by
  rw [proceed]
  simp only [step_bind_eq_ok, currentKind_eq_ok]
  constructor
  · rintro ⟨k, u, ⟨rfl, t, ht, rfl⟩, h⟩
    refine ⟨t, ht, ?_⟩
    unfold Rules.power
    rcases hcont : rules.continuation t.kind with _ | ⟨tight, form⟩
    · rw [hcont] at h
      cases h
      exact .inr ⟨Nat.not_lt_zero _, rfl, rfl⟩
    · simp only [hcont] at h
      by_cases hlt : p < tight
      · rw [if_pos hlt] at h
        obtain ⟨next, v, hnext, hrest⟩ := step_bind_eq_ok.mp h
        exact .inl ⟨tight, form, next, v, rfl, hlt, hnext, hrest⟩
      · rw [if_neg hlt] at h
        cases h
        exact .inr ⟨hlt, rfl, rfl⟩
  · rintro ⟨t, ht, ⟨tight, form, next, u, hcont, hlt, hnext, hrest⟩ | ⟨hlt, rfl, rfl⟩⟩
    · refine ⟨t.kind, s, ⟨rfl, t, ht, rfl⟩, ?_⟩
      simp only [hcont, if_pos hlt]
      exact step_bind_eq_ok.mpr ⟨next, u, hnext, hrest⟩
    · refine ⟨t.kind, s', ⟨rfl, t, ht, rfl⟩, ?_⟩
      unfold Rules.power at hlt
      rcases hcont : rules.continuation t.kind with _ | ⟨tight, form⟩
      · rfl
      · simp only [hcont] at hlt ⊢
        rw [if_neg hlt]
        rfl

theorem atom_eq_ok : atom s = .ok e s' ↔ ∃ t, advance s = .ok t s' ∧
    (t.kind = .numeral ∧ (∃ value, t.literal = some (.int value) ∧ e = .int value) ∨
      t.kind = .boolean ∧ (∃ value, t.literal = some (.bool value) ∧ e = .bool value) ∨
      t.kind = .identifier ∧ e = .var ⟨t.text, t.span.start⟩) := by
  unfold atom
  simp only [step_bind_eq_ok, currentKind_eq_ok]
  constructor
  · rintro ⟨k, u, ⟨rfl, t, ht, rfl⟩, h⟩
    cases hk : t.kind
    case numeral =>
      simp only [hk] at h
      obtain ⟨t', v, hadv, h⟩ := step_bind_eq_ok.mp h
      cases (advance_eq_ok.mp hadv).1.symm.trans ht
      obtain ⟨value, w, hvalue, hpure⟩ := step_bind_eq_ok.mp h
      obtain ⟨hliteral, rfl⟩ := ofExcept_eq_ok.mp hvalue
      cases hpure
      exact ⟨t, hadv, .inl ⟨hk, value, Token.int_eq_ok.mp hliteral, rfl⟩⟩
    case boolean =>
      simp only [hk] at h
      obtain ⟨t', v, hadv, h⟩ := step_bind_eq_ok.mp h
      cases (advance_eq_ok.mp hadv).1.symm.trans ht
      obtain ⟨value, w, hvalue, hpure⟩ := step_bind_eq_ok.mp h
      obtain ⟨hliteral, rfl⟩ := ofExcept_eq_ok.mp hvalue
      cases hpure
      exact ⟨t, hadv, .inr (.inl ⟨hk, value, Token.bool_eq_ok.mp hliteral, rfl⟩)⟩
    case identifier =>
      simp only [hk] at h
      obtain ⟨t', v, hadv, h⟩ := step_bind_eq_ok.mp h
      cases (advance_eq_ok.mp hadv).1.symm.trans ht
      cases h
      exact ⟨t, hadv, .inr (.inr ⟨hk, rfl⟩)⟩
    all_goals
      simp only [hk] at h
      cases h
  · rintro ⟨t, hadv, h⟩
    have ht := (advance_eq_ok.mp hadv).1
    refine ⟨t.kind, s, ⟨rfl, t, ht, rfl⟩, ?_⟩
    obtain ⟨hk, value, hvalue, rfl⟩ | ⟨hk, value, hvalue, rfl⟩ | ⟨hk, rfl⟩ := h
    · simp only [hk]
      exact step_bind_eq_ok.mpr ⟨t, s', hadv, step_bind_eq_ok.mpr
        ⟨value, s', ofExcept_eq_ok.mpr ⟨Token.int_eq_ok.mpr hvalue, rfl⟩, rfl⟩⟩
    · simp only [hk]
      exact step_bind_eq_ok.mpr ⟨t, s', hadv, step_bind_eq_ok.mpr
        ⟨value, s', ofExcept_eq_ok.mpr ⟨Token.bool_eq_ok.mpr hvalue, rfl⟩, rfl⟩⟩
    · simp only [hk]
      exact step_bind_eq_ok.mpr ⟨t, s', hadv, rfl⟩

theorem opening_unary_eq_ok : opening rules (n + 1) .unary s = .ok e s' ↔ ∃ t u operand op,
    advance s = .ok t u ∧ expr rules n .unary u = .ok operand s' ∧ t.kind.unaryOp? = some op ∧
      e = .unary op operand := by
  rw [opening]
  simp only [step_bind_eq_ok]
  constructor
  · rintro ⟨t, u, ht, operand, v, hoperand, h⟩
    cases hop : t.kind.unaryOp? with
    | some op =>
      rw [hop] at h
      cases h
      exact ⟨t, u, operand, op, ht, hoperand, hop, rfl⟩
    | none =>
      rw [hop] at h
      cases h
  · rintro ⟨t, u, operand, op, ht, hoperand, hop, rfl⟩
    refine ⟨t, u, ht, operand, s', hoperand, ?_⟩
    rw [hop]
    rfl

theorem opening_group_eq_ok : opening rules (n + 1) .group s = .ok e s' ↔ ∃ t u v t',
    expect .openParen s = .ok t u ∧ expr rules n .lowest u = .ok e v ∧
      expect .closeParen v = .ok t' s' := by
  rw [opening]
  simp only [step_bind_eq_ok, step_discard_eq_ok]
  constructor
  · rintro ⟨_, u, ⟨t, ht⟩, inner, v, hinner, _, w, ⟨t', ht'⟩, h⟩
    cases h
    exact ⟨t, u, v, t', ht, hinner, ht'⟩
  · rintro ⟨t, u, v, t', ht, hinner, ht'⟩
    exact ⟨⟨⟩, u, ⟨t, ht⟩, e, v, hinner, ⟨⟩, s', ⟨t', ht'⟩, rfl⟩

theorem opening_list_eq_ok : opening rules (n + 1) .list s = .ok e s' ↔ ∃ t u items v t',
    expect .openBracket s = .ok t u ∧ exprs rules n u = .ok items v ∧
      expect .closeBracket v = .ok t' s' ∧ e = .list items := by
  rw [opening]
  simp only [step_bind_eq_ok, step_discard_eq_ok]
  constructor
  · rintro ⟨_, u, ⟨t, ht⟩, items, v, hitems, _, w, ⟨t', ht'⟩, h⟩
    cases h
    exact ⟨t, u, items, v, t', ht, hitems, ht', rfl⟩
  · rintro ⟨t, u, items, v, t', ht, hitems, ht', rfl⟩
    exact ⟨⟨⟩, u, ⟨t, ht⟩, items, v, hitems, ⟨⟩, s', ⟨t', ht'⟩, rfl⟩

theorem continuation_binary_eq_ok : continuation rules (n + 1) .binary left tight s = .ok e s' ↔
    ∃ t u right op, advance s = .ok t u ∧ expr rules n tight u = .ok right s' ∧
      t.kind.binaryOp? = some op ∧ e = .binary op left right := by
  rw [continuation]
  simp only [step_bind_eq_ok]
  constructor
  · rintro ⟨t, u, ht, right, v, hright, h⟩
    cases hop : t.kind.binaryOp? with
    | some op =>
      rw [hop] at h
      cases h
      exact ⟨t, u, right, op, ht, hright, hop, rfl⟩
    | none =>
      rw [hop] at h
      cases h
  · rintro ⟨t, u, right, op, ht, hright, hop, rfl⟩
    refine ⟨t, u, ht, right, s', hright, ?_⟩
    rw [hop]
    rfl

theorem continuation_cons_eq_ok : continuation rules (n + 1) .cons left tight s = .ok e s' ↔
    ∃ t u right, expect .cons s = .ok t u ∧ expr rules n .lowest u = .ok right s' ∧
      e = .binary .cons left right := by
  rw [continuation]
  simp only [step_bind_eq_ok, step_discard_eq_ok]
  constructor
  · rintro ⟨_, u, ⟨t, ht⟩, right, v, hright, h⟩
    cases h
    exact ⟨t, u, right, ht, hright, rfl⟩
  · rintro ⟨t, u, right, ht, hright, rfl⟩
    exact ⟨⟨⟩, u, ⟨t, ht⟩, right, s', hright, rfl⟩

theorem exprs_eq_ok {items : Exprs} : exprs rules (n + 1) s = .ok items s' ↔ ∃ item u t,
    expr rules n .lowest s = .ok item u ∧ u.current = some t ∧
      ((t.kind = .comma ∧ ∃ rest v, advance u = .ok t v ∧ exprs rules n v = .ok rest s' ∧
          items = .more item rest) ∨
        t.kind ≠ .comma ∧ s' = u ∧ items = .one item) := by
  rw [exprs]
  simp only [step_bind_eq_ok, isAt_eq_ok]
  constructor
  · rintro ⟨item, u, hitem, b, v, ⟨rfl, t, ht, rfl⟩, h⟩
    refine ⟨item, v, t, hitem, ht, ?_⟩
    by_cases hk : t.kind = .comma
    · simp only [hk, decide_true, if_true] at h
      obtain ⟨_, w, hadv, h⟩ := step_bind_eq_ok.mp h
      obtain ⟨rest, x, hrest, h⟩ := step_bind_eq_ok.mp h
      obtain ⟨t', ht'⟩ := step_discard_eq_ok.mp hadv
      cases (advance_eq_ok.mp ht').1.symm.trans ht
      cases h
      exact .inl ⟨hk, rest, w, ht', hrest, rfl⟩
    · simp only [hk, decide_false] at h
      cases h
      exact .inr ⟨hk, rfl, rfl⟩
  · rintro ⟨item, u, t, hitem, ht, ⟨hk, rest, v, hadv, hrest, rfl⟩ | ⟨hk, rfl, rfl⟩⟩
    · refine ⟨item, u, hitem, _, u, ⟨rfl, t, ht, rfl⟩, ?_⟩
      simp only [hk, decide_true, if_true]
      exact step_bind_eq_ok.mpr ⟨⟨⟩, v, step_discard_eq_ok.mpr ⟨t, hadv⟩,
        step_bind_eq_ok.mpr ⟨rest, s', hrest, rfl⟩⟩
    · refine ⟨item, s', hitem, _, s', ⟨rfl, t, ht, rfl⟩, ?_⟩
      simp only [hk, decide_false]
      rfl

/-! ## Statements -/

variable {stmt' : Stmt} {b : Block}

theorem stmt_eq_ok : stmt rules (n + 1) s = .ok stmt' s' ↔ ∃ t form, s.current = some t ∧
    rules.form t.kind = some form ∧ stmtOf rules n form s = .ok stmt' s' := by
  rw [stmt]
  simp only [step_bind_eq_ok, currentKind_eq_ok]
  constructor
  · rintro ⟨k, u, ⟨rfl, t, ht, rfl⟩, h⟩
    cases hform : rules.form t.kind with
    | some form =>
      rw [hform] at h
      exact ⟨t, form, ht, hform, h⟩
    | none =>
      rw [hform] at h
      cases h
  · rintro ⟨t, form, ht, hform, h⟩
    refine ⟨t.kind, s, ⟨rfl, t, ht, rfl⟩, ?_⟩
    rw [hform]
    exact h

theorem stmtOf_declare_eq_ok : stmtOf rules (n + 1) .declare s = .ok stmt' s' ↔
    ∃ t u x v t' w e, expect .varWord s = .ok t u ∧ ident u = .ok x v ∧
      expect .assign v = .ok t' w ∧ expr rules n .lowest w = .ok e s' ∧
      stmt' = .declare x e := by
  rw [stmtOf]
  simp only [step_bind_eq_ok, step_discard_eq_ok]
  constructor
  · rintro ⟨_, u, ⟨t, ht⟩, x, v, hx, _, w, ⟨t', ht'⟩, e, z, he, h⟩
    cases h
    exact ⟨t, u, x, v, t', w, e, ht, hx, ht', he, rfl⟩
  · rintro ⟨t, u, x, v, t', w, e, ht, hx, ht', he, rfl⟩
    exact ⟨⟨⟩, u, ⟨t, ht⟩, x, v, hx, ⟨⟩, w, ⟨t', ht'⟩, e, s', he, rfl⟩

theorem stmtOf_assign_eq_ok : stmtOf rules (n + 1) .assign s = .ok stmt' s' ↔
    ∃ x u t v e, ident s = .ok x u ∧ expect .assign u = .ok t v ∧
      expr rules n .lowest v = .ok e s' ∧ stmt' = .assign x e := by
  rw [stmtOf]
  simp only [step_bind_eq_ok, step_discard_eq_ok]
  constructor
  · rintro ⟨x, u, hx, _, v, ⟨t, ht⟩, e, z, he, h⟩
    cases h
    exact ⟨x, u, t, v, e, hx, ht, he, rfl⟩
  · rintro ⟨x, u, t, v, e, hx, ht, he, rfl⟩
    exact ⟨x, u, hx, ⟨⟩, v, ⟨t, ht⟩, e, s', he, rfl⟩

theorem stmtOf_print_eq_ok : stmtOf rules (n + 1) .print s = .ok stmt' s' ↔
    ∃ t u e, expect .printWord s = .ok t u ∧ expr rules n .lowest u = .ok e s' ∧
      stmt' = .print e := by
  rw [stmtOf]
  simp only [step_bind_eq_ok, step_discard_eq_ok]
  constructor
  · rintro ⟨_, u, ⟨t, ht⟩, e, z, he, h⟩
    cases h
    exact ⟨t, u, e, ht, he, rfl⟩
  · rintro ⟨t, u, e, ht, he, rfl⟩
    exact ⟨⟨⟩, u, ⟨t, ht⟩, e, s', he, rfl⟩

theorem stmtOf_forEach_eq_ok : stmtOf rules (n + 1) .forEach s = .ok stmt' s' ↔
    ∃ t₁ s₁ x s₂ t₂ s₃ e s₄ t₃ s₅ body s₆ t₄, expect .forWord s = .ok t₁ s₁ ∧
      ident s₁ = .ok x s₂ ∧ expect .colon s₂ = .ok t₂ s₃ ∧
      expr rules n .lowest s₃ = .ok e s₄ ∧ expect .openBrace s₄ = .ok t₃ s₅ ∧
      block rules n s₅ = .ok body s₆ ∧ expect .closeBrace s₆ = .ok t₄ s' ∧
      stmt' = .forEach x e body := by
  rw [stmtOf]
  simp only [step_bind_eq_ok, step_discard_eq_ok]
  constructor
  · rintro ⟨_, s₁, ⟨t₁, h₁⟩, x, s₂, hx, _, s₃, ⟨t₂, h₂⟩, e, s₄, he, _, s₅, ⟨t₃, h₃⟩, body, s₆,
      hbody, _, s₇, ⟨t₄, h₄⟩, h⟩
    cases h
    exact ⟨t₁, s₁, x, s₂, t₂, s₃, e, s₄, t₃, s₅, body, s₆, t₄, h₁, hx, h₂, he, h₃, hbody, h₄, rfl⟩
  · rintro ⟨t₁, s₁, x, s₂, t₂, s₃, e, s₄, t₃, s₅, body, s₆, t₄, h₁, hx, h₂, he, h₃, hbody, h₄, rfl⟩
    exact ⟨⟨⟩, s₁, ⟨t₁, h₁⟩, x, s₂, hx, ⟨⟩, s₃, ⟨t₂, h₂⟩, e, s₄, he, ⟨⟩, s₅, ⟨t₃, h₃⟩, body, s₆,
      hbody, ⟨⟩, s', ⟨t₄, h₄⟩, rfl⟩

theorem block_eq_ok : block rules (n + 1) s = .ok b s' ↔ ∃ first u t,
    stmt rules n s = .ok first u ∧ u.current = some t ∧
      ((t.kind = .semicolon ∧ ∃ v t', advance u = .ok t v ∧ v.current = some t' ∧
          ((t'.kind = .endOfText ∨ t'.kind = .closeBrace) ∧ s' = v ∧ b = .one first ∨
            ¬ (t'.kind = .endOfText ∨ t'.kind = .closeBrace) ∧
              ∃ rest, block rules n v = .ok rest s' ∧ b = .more first rest)) ∨
        t.kind ≠ .semicolon ∧ s' = u ∧ b = .one first) := by
  rw [block]
  simp only [step_bind_eq_ok, isAt_eq_ok]
  constructor
  · rintro ⟨first, u, hfirst, c, v, ⟨rfl, t, ht, rfl⟩, h⟩
    refine ⟨first, v, t, hfirst, ht, ?_⟩
    by_cases hk : t.kind = .semicolon
    · simp only [hk, decide_true, if_true] at h
      obtain ⟨_, w, hadv, h⟩ := step_bind_eq_ok.mp h
      obtain ⟨t', ht'⟩ := step_discard_eq_ok.mp hadv
      cases (advance_eq_ok.mp ht').1.symm.trans ht
      obtain ⟨_, x, hend, h⟩ := step_bind_eq_ok.mp h
      obtain ⟨rfl, a, ha, rfl⟩ := isAt_eq_ok.mp hend
      obtain ⟨_, y, hbrace, h⟩ := step_bind_eq_ok.mp h
      obtain ⟨rfl, a', ha', rfl⟩ := isAt_eq_ok.mp hbrace
      cases ha.symm.trans ha'
      refine .inl ⟨hk, y, a, ht', ha, ?_⟩
      by_cases hlast : a.kind = .endOfText ∨ a.kind = .closeBrace
      · rw [if_pos (by simpa using hlast)] at h
        cases h
        exact .inl ⟨hlast, rfl, rfl⟩
      · rw [if_neg (by simpa using hlast)] at h
        obtain ⟨rest, z, hrest, h⟩ := step_bind_eq_ok.mp h
        cases h
        exact .inr ⟨hlast, rest, hrest, rfl⟩
    · simp only [hk, decide_false] at h
      cases h
      exact .inr ⟨hk, rfl, rfl⟩
  · rintro ⟨first, u, t, hfirst, ht, ⟨hk, v, a, hadv, ha, hrest⟩ | ⟨hk, rfl, rfl⟩⟩
    · refine ⟨first, u, hfirst, _, u, ⟨rfl, t, ht, rfl⟩, ?_⟩
      simp only [hk, decide_true, if_true]
      refine step_bind_eq_ok.mpr ⟨⟨⟩, v, step_discard_eq_ok.mpr ⟨t, hadv⟩, ?_⟩
      refine step_bind_eq_ok.mpr ⟨_, v, isAt_eq_ok.mpr ⟨rfl, a, ha, rfl⟩, ?_⟩
      refine step_bind_eq_ok.mpr ⟨_, v, isAt_eq_ok.mpr ⟨rfl, a, ha, rfl⟩, ?_⟩
      obtain ⟨hlast, rfl, rfl⟩ | ⟨hlast, rest, hrest, rfl⟩ := hrest
      · rw [if_pos (by simpa using hlast)]
        rfl
      · rw [if_neg (by simpa using hlast)]
        exact step_bind_eq_ok.mpr ⟨rest, s', hrest, rfl⟩
    · refine ⟨first, s', hfirst, _, s', ⟨rfl, t, ht, rfl⟩, ?_⟩
      simp only [hk, decide_false]
      rfl

end Grammar

/-! ## Programs -/

namespace Parser

variable {rules : Rules} {s s' : TokenStream} {b : Block}

theorem start_eq_ok : start s = .ok () s' ↔ (∃ t, s.current = some t) ∧ s' = s ∨
    s.current = none ∧ ∃ k, s.advance = .ok k s' := by
  unfold start
  simp only [step_bind_eq_ok]
  constructor
  · rintro ⟨a, u, hget, h⟩
    cases hget
    cases ht : s.current with
    | some t =>
      simp only [ht] at h
      cases h
      exact .inl ⟨⟨t, rfl⟩, rfl⟩
    | none =>
      simp only [ht] at h
      obtain ⟨k, hstep⟩ := step_discard_eq_ok.mp h
      exact .inr ⟨rfl, k, step_eq_ok.mp hstep⟩
  · rintro (⟨⟨t, ht⟩, rfl⟩ | ⟨ht, k, hstep⟩)
    · refine ⟨s', s', rfl, ?_⟩
      simp only [ht]
      rfl
    · refine ⟨s, s, rfl, ?_⟩
      simp only [ht]
      exact step_discard_eq_ok.mpr ⟨k, step_eq_ok.mpr hstep⟩

theorem program_eq_ok : program rules s = .ok b s' ↔ ∃ u v t, start s = .ok () u ∧
    Grammar.block rules (budget u) u = .ok b v ∧ expect .endOfText v = .ok t s' := by
  unfold program
  simp only [step_bind_eq_ok, step_discard_eq_ok]
  constructor
  · rintro ⟨_, u, hstart, b', v, hblock, _, w, ⟨t, ht⟩, h⟩
    cases h
    exact ⟨u, v, t, hstart, hblock, ht⟩
  · rintro ⟨u, v, t, hstart, hblock, ht⟩
    exact ⟨⟨⟩, u, hstart, b, v, hblock, ⟨⟩, s', ⟨t, ht⟩, rfl⟩

end Parser

end ListScript
