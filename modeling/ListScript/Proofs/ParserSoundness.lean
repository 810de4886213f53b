import ListScript.Proofs.ParserCompleteness

/-!
# The parser finds nothing but derivations

* `Power.level` : the level whose phrases an expression of some power is;
* `Phrase.exists_loosened` : a phrase of a level is one of every looser level;
* `Loose p s` : the token at hand does not go on with an expression of power `p`;
* `Grammar.ExprSound n`, `Grammar.StmtSound n` : with a bound of `n`, what the parser gives is the
  tree of a derivation, and what it has read are its tokens; `Grammar.exprSound`,
  `Grammar.stmtSound` : so it is with every bound.
-/

namespace ListScript

/-- The level of the expressions all of whose operators outside parentheses bind more tightly than a
power. -/
def Power.level : Power → Level
  | .lowest => .whole
  | .cons => .conjunction
  | .logical => .comparison
  | .relational => .sum
  | .additive => .product
  | .multiplicative | .unary => .operand

namespace Power

theorem level_rank_le {p : Power} {l : Level} (h : p.rank < l.rank) : p.level.rank ≤ l.rank := by
  revert h
  cases p <;> cases l <;> decide

theorem rank_le_six (p : Power) : p.rank ≤ 6 := by
  cases p <;> decide

end Power

namespace Level

theorem bound_le_rank (l : Level) : l.bound ≤ l.rank := by
  cases l <;> decide

theorem tighter_rank_le {l l' : Level} (hne : l' ≠ l) (h : l'.rank ≤ l.rank) :
    l' ≠ .operand ∧ l'.tighter.rank ≤ l.rank := by
  revert hne h
  cases l <;> cases l' <;> decide

end Level

/-- A phrase of a level is one of every looser level. -/
theorem Phrase.exists_loosened {l : Level} (d : Phrase l) (l' : Level) (h : l'.rank ≤ l.rank) :
    ∃ d' : Phrase l', d'.tokens = d.tokens ∧ d'.tree = d.tree := by
  by_cases heq : l' = l
  · subst heq
    exact ⟨d, rfl, rfl⟩
  · obtain ⟨hne, hle⟩ := Level.tighter_rank_le heq h
    obtain ⟨d', htokens, htree⟩ := exists_loosened d l'.tighter hle
    exact ⟨.tighter hne d', htokens, htree⟩
termination_by 7 - l'.rank
decreasing_by
  have hlt := Level.rank_lt_tighter hne
  have hle : l'.tighter.rank ≤ 7 := by cases l' <;> decide
  omega

/-- The token at hand does not go on with an expression of a power. -/
def Loose (p : Power) (s : TokenStream) : Prop :=
  ∃ t, s.current = some t ∧ (Rules.standard.power t.kind).rank ≤ p.rank

/-- What goes on with an expression of the language: an operator of a level that groups to the left,
or `::`. -/
theorem Rules.standard_continuation {kind : Kind} {tight : Power} {form : Continuation}
    (h : standard.continuation kind = some (tight, form)) :
    (kind = .cons ∧ tight = .cons ∧ form = .cons) ∨
      ∃ (l : Level) (op : BinaryOp), l.operator? = some (kind, op) ∧ tight.level = l.tighter ∧
        form = .binary := by
  cases kind <;> cases h
  case cons => exact .inl ⟨rfl, rfl, rfl⟩
  case and => exact .inr ⟨.conjunction, .and, rfl, rfl, rfl⟩
  case equal => exact .inr ⟨.comparison, .equal, rfl, rfl, rfl⟩
  case plus => exact .inr ⟨.sum, .add, rfl, rfl, rfl⟩
  case times => exact .inr ⟨.product, .multiply, rfl, rfl, rfl⟩

theorem Kind.unaryOp?_eq_some {kind : Kind} {op : UnaryOp} (h : kind.unaryOp? = some op) :
    kind = .minus ∧ op = .negate ∨ kind = .not ∧ op = .not := by
  cases kind <;> cases h
  case minus => exact .inl ⟨rfl, rfl⟩
  case not => exact .inr ⟨rfl, rfl⟩

namespace Grammar
open ListScript.Parser

/-- With a bound of `n`, what the parser makes of expressions are trees of derivations, and it reads
what they derive. -/
structure ExprSound (n : Nat) : Prop where
  expr {p : Power} {s s' : TokenStream} {e : Expr} : s.Standard →
    expr .standard n p s = .ok e s' →
    ∃ d : Phrase p.level, d.tree = e ∧ Reads d.tokens s s' ∧ Loose p s'
  proceed {p : Power} {l : Level} {s s' s'' : TokenStream} {e : Expr} (d : Phrase l) :
    s.Standard → p.rank < l.rank → Reads d.tokens s s' →
    (∀ t, s'.current = some t → (Rules.standard.power t.kind).rank ≤ l.bound) →
    proceed .standard n p d.tree s' = .ok e s'' →
    ∃ d' : Phrase p.level, d'.tree = e ∧ Reads d'.tokens s s'' ∧ Loose p s''
  opening {form : Opening} {s s' : TokenStream} {e : Expr} : s.Standard →
    opening .standard n form s = .ok e s' →
    ∃ d : Phrase .operand, d.tree = e ∧ Reads d.tokens s s'
  continuation {tight : Power} {form : Continuation} {t : Token} {l : Level}
    {s s' s'' : TokenStream} {e : Expr} (d : Phrase l) : s.Standard → Reads d.tokens s s' →
    s'.current = some t → Rules.standard.continuation t.kind = some (tight, form) →
    tight.rank ≤ l.bound → continuation .standard n form d.tree tight s' = .ok e s'' →
    ∃ (l' : Level) (d' : Phrase l'), tight.rank = l'.rank ∧ d'.tree = e ∧ Reads d'.tokens s s'' ∧
      Follows l' s''
  exprs {s s' : TokenStream} {items : Exprs} : s.Standard →
    exprs .standard n s = .ok items s' → ∃ d : Items, d.tree = items ∧ Reads d.tokens s s'

theorem exprSound_zero : ExprSound 0 where
  expr _ h := by rw [expr] at h; cases h
  proceed _ _ _ _ _ h := by rw [proceed] at h; cases h
  opening _ h := by rw [opening] at h; cases h
  continuation _ _ _ _ _ _ h := by rw [continuation] at h; cases h
  exprs _ h := by rw [exprs] at h; cases h

section Step

variable {n : Nat} {p tight : Power} {l : Level} {s s' s'' : TokenStream} {e : Expr}

theorem ExprSound.expr_succ (ih : ExprSound n) (hs : s.Standard)
    (h : Grammar.expr .standard (n + 1) p s = .ok e s') :
    ∃ d : Phrase p.level, d.tree = e ∧ Reads d.tokens s s' ∧ Loose p s' := by
  obtain ⟨t, form, left, u, ht, hform, hleft, hrest⟩ := expr_eq_ok.mp h
  obtain ⟨d, rfl, hd⟩ := ih.opening hs hleft
  have hp : p.rank < Level.rank .operand := Nat.lt_succ_of_le p.rank_le_six
  exact ih.proceed d hs hp hd (fun t' _ => (Rules.standard.power t'.kind).rank_le_six) hrest

theorem ExprSound.proceed_succ (ih : ExprSound n) (d : Phrase l) (hs : s.Standard)
    (hp : p.rank < l.rank) (hd : Reads d.tokens s s')
    (hfollows : ∀ t, s'.current = some t → (Rules.standard.power t.kind).rank ≤ l.bound)
    (h : Grammar.proceed .standard (n + 1) p d.tree s' = .ok e s'') :
    ∃ d' : Phrase p.level, d'.tree = e ∧ Reads d'.tokens s s'' ∧ Loose p s'' := by
  obtain ⟨t, ht, ⟨tight, form, next, u, hcont, hlt, hnext, hrest⟩ | ⟨hloose, rfl, rfl⟩⟩ :=
    proceed_eq_ok.mp h
  · have htight : Rules.standard.power t.kind = tight := by rw [Rules.power, hcont]
    have hle : tight.rank ≤ l.bound := by rw [← htight]; exact hfollows t ht
    obtain ⟨l', d', hrank, rfl, hd', t', ht', hle'⟩ := ih.continuation d hs hd ht hcont hle hnext
    refine ih.proceed d' hs (by rw [← hrank]; exact hlt) hd' (fun t'' ht'' => ?_) hrest
    cases ht'.symm.trans ht''
    exact hle'
  · obtain ⟨d', htokens, htree⟩ := d.exists_loosened p.level (Power.level_rank_le hp)
    exact ⟨d', htree, by rw [htokens]; exact hd, t, ht, Nat.not_lt.mp hloose⟩

theorem ExprSound.opening_succ (ih : ExprSound n) {form : Opening} (hs : s.Standard)
    (h : Grammar.opening .standard (n + 1) form s = .ok e s') :
    ∃ d : Phrase .operand, d.tree = e ∧ Reads d.tokens s s' := by
  cases form with
  | atom =>
    obtain ⟨t, hadv, ⟨hk, value, hvalue, rfl⟩ | ⟨hk, value, hvalue, rfl⟩ | ⟨hk, rfl⟩⟩ :=
      atom_eq_ok.mp h
    · exact ⟨.number ⟨t, hk⟩ value hvalue, rfl, reads_of_advance hs hadv (by rw [hk]; decide)⟩
    · exact ⟨.truth ⟨t, hk⟩ value hvalue, rfl, reads_of_advance hs hadv (by rw [hk]; decide)⟩
    · exact ⟨.name ⟨t, hk⟩, rfl, reads_of_advance hs hadv (by rw [hk]; decide)⟩
  | unary =>
    obtain ⟨t, u, operand, op, hadv, hexpr, hop, rfl⟩ := opening_unary_eq_ok.mp h
    have hend : t.kind ≠ .endOfText := by
      intro hk
      rw [hk] at hop
      cases hop
    have ht := reads_of_advance hs hadv hend
    obtain ⟨d, rfl, hd, -⟩ := ih.expr (ht.standard hs) hexpr
    obtain ⟨hk, rfl⟩ | ⟨hk, rfl⟩ := Kind.unaryOp?_eq_some hop
    · exact ⟨.negate ⟨t, hk⟩ d, rfl, ht.append hd⟩
    · exact ⟨.not ⟨t, hk⟩ d, rfl, ht.append hd⟩
  | group =>
    obtain ⟨_, u, v, _, hopening, hexpr, hclosing⟩ := opening_group_eq_ok.mp h
    obtain ⟨t, -, ht⟩ := reads_of_expect hs (by decide) hopening
    obtain ⟨d, rfl, hd, -⟩ := ih.expr (ht.standard hs) hexpr
    obtain ⟨c, -, hc⟩ := reads_of_expect (hd.standard (ht.standard hs)) (by decide) hclosing
    exact ⟨.group t d c, rfl, ht.append (hd.append hc)⟩
  | list =>
    obtain ⟨_, u, items, v, _, hopening, hitems, hclosing, rfl⟩ := opening_list_eq_ok.mp h
    obtain ⟨t, -, ht⟩ := reads_of_expect hs (by decide) hopening
    obtain ⟨d, rfl, hd⟩ := ih.exprs (ht.standard hs) hitems
    obtain ⟨c, -, hc⟩ := reads_of_expect (hd.standard (ht.standard hs)) (by decide) hclosing
    exact ⟨.list t d c, rfl, ht.append (hd.append hc)⟩

theorem ExprSound.continuation_succ (ih : ExprSound n) {form : Continuation} {t : Token}
    (d : Phrase l) (hs : s.Standard) (hd : Reads d.tokens s s') (ht : s'.current = some t)
    (hcont : Rules.standard.continuation t.kind = some (tight, form)) (hle : tight.rank ≤ l.bound)
    (h : Grammar.continuation .standard (n + 1) form d.tree tight s' = .ok e s'') :
    ∃ (l' : Level) (d' : Phrase l'), tight.rank = l'.rank ∧ d'.tree = e ∧ Reads d'.tokens s s'' ∧
      Follows l' s'' := by
  have hs' := hd.standard hs
  obtain ⟨hk, rfl, rfl⟩ | ⟨l', op, hop, hlevel, rfl⟩ := Rules.standard_continuation hcont
  · obtain ⟨_, u, right, hexpect, hexpr, rfl⟩ := continuation_cons_eq_ok.mp h
    obtain ⟨t', -, ht'⟩ := reads_of_expect hs' (by decide) hexpect
    obtain ⟨r, rfl, hr, hloose⟩ : ∃ r : Phrase .whole, r.tree = right ∧ Reads r.tokens u s'' ∧
        Loose .lowest s'' := ih.expr (ht'.standard hs') hexpr
    have hl : Level.rank .conjunction ≤ l.rank := by
      revert hle
      cases l <;> decide
    obtain ⟨d', htokens, htree⟩ := d.exists_loosened .conjunction hl
    refine ⟨.whole, .cons d' t' r, rfl, by simp only [Phrase.tree, htree], ?_, hloose⟩
    simp only [Phrase.tokens, htokens]
    exact hd.append (ht'.append hr)
  · obtain ⟨tight', hcont', hbin, hrank, hbound⟩ := Level.continuation hop
    cases hcont.symm.trans hcont'
    obtain ⟨t', u, right, op', hadv, hexpr, hop', rfl⟩ := continuation_binary_eq_ok.mp h
    obtain rfl : t' = t := Option.some.inj ((advance_eq_ok.mp hadv).1.symm.trans ht)
    obtain rfl : op' = op := Option.some.inj (hop'.symm.trans hbin)
    have hend : t'.kind ≠ .endOfText := by
      intro hk
      rw [hk] at hop'
      cases hop'
    have ht' := reads_of_advance hs' hadv hend
    obtain ⟨r, rfl, hr, t'', ht'', hloose⟩ : ∃ r : Phrase l'.tighter, r.tree = right ∧
        Reads r.tokens u s'' ∧ Loose tight s'' := by
      rw [← hlevel]
      exact ih.expr (ht'.standard hs') hexpr
    obtain ⟨d', htokens, htree⟩ := d.exists_loosened l'
      (by rw [← hrank]; exact Nat.le_trans hle l.bound_le_rank)
    refine ⟨l', .binary hop d' ⟨t', rfl⟩ r, hrank, by simp only [Phrase.tree, htree], ?_, t'', ht'',
      by rw [hbound, ← hrank]; exact hloose⟩
    simp only [Phrase.tokens, htokens]
    exact hd.append (ht'.append hr)

theorem ExprSound.exprs_succ (ih : ExprSound n) {items : Exprs} (hs : s.Standard)
    (h : Grammar.exprs .standard (n + 1) s = .ok items s') :
    ∃ d : Items, d.tree = items ∧ Reads d.tokens s s' := by
  obtain ⟨item, u, t, hitem, ht, hrest⟩ := exprs_eq_ok.mp h
  obtain ⟨d, rfl, hd, -⟩ := ih.expr hs hitem
  obtain ⟨hk, rest, v, hadv, hrest', rfl⟩ | ⟨-, rfl, rfl⟩ := hrest
  · have hu := hd.standard hs
    have hcomma := reads_of_advance hu hadv (by rw [hk]; decide)
    obtain ⟨ds, rfl, hds⟩ := ih.exprs (hcomma.standard hu) hrest'
    exact ⟨.more d ⟨t, hk⟩ ds, rfl, hd.append (hcomma.append hds)⟩
  · exact ⟨.one d, rfl, hd⟩

end Step

/-- What the parser makes of expressions are trees of derivations. -/
theorem exprSound (n : Nat) : ExprSound n := by
  induction n with
  | zero => exact exprSound_zero
  | succ n ih =>
    exact ⟨ih.expr_succ, fun d => ih.proceed_succ d, ih.opening_succ,
      fun d => ih.continuation_succ d, ih.exprs_succ⟩

/-- With a bound of `n`, what the parser makes of statements are trees of derivations, and it reads
what they derive. -/
structure StmtSound (n : Nat) : Prop where
  stmt {s s' : TokenStream} {a : Stmt} : s.Standard → stmt .standard n s = .ok a s' →
    ∃ d : StmtPhrase, d.tree = a ∧ Reads d.tokens s s'
  stmtOf {form : StmtForm} {s s' : TokenStream} {a : Stmt} : s.Standard →
    stmtOf .standard n form s = .ok a s' → ∃ d : StmtPhrase, d.tree = a ∧ Reads d.tokens s s'
  block {s s' : TokenStream} {b : Block} : s.Standard → block .standard n s = .ok b s' →
    ∃ d : SeqPhrase, d.tree = b ∧ Reads d.tokens s s'

theorem stmtSound_zero : StmtSound 0 where
  stmt _ h := by rw [stmt] at h; cases h
  stmtOf _ h := by rw [stmtOf] at h; cases h
  block _ h := by rw [block] at h; cases h

section Step

variable {n : Nat} {s s' : TokenStream}

theorem StmtSound.stmtOf_succ (ih : StmtSound n) {form : StmtForm} {a : Stmt} (hs : s.Standard)
    (h : Grammar.stmtOf .standard (n + 1) form s = .ok a s') :
    ∃ d : StmtPhrase, d.tree = a ∧ Reads d.tokens s s' := by
  cases form with
  | declare =>
    obtain ⟨_, s₁, _, s₂, _, s₃, _, hword, hname, hassign, hexpr, rfl⟩ :=
      stmtOf_declare_eq_ok.mp h
    obtain ⟨word, -, h₁⟩ := reads_of_expect hs (by decide) hword
    have hs₁ := h₁.standard hs
    obtain ⟨name, rfl, h₂⟩ := reads_of_ident hs₁ hname
    have hs₂ := h₂.standard hs₁
    obtain ⟨assign, -, h₃⟩ := reads_of_expect hs₂ (by decide) hassign
    obtain ⟨e, rfl, he, -⟩ := (exprSound n).expr (h₃.standard hs₂) hexpr
    exact ⟨.declare word name assign e, rfl, h₁.append (h₂.append (h₃.append he))⟩
  | assign =>
    obtain ⟨_, s₁, _, s₂, _, hname, hassign, hexpr, rfl⟩ := stmtOf_assign_eq_ok.mp h
    obtain ⟨name, rfl, h₁⟩ := reads_of_ident hs hname
    have hs₁ := h₁.standard hs
    obtain ⟨assign, -, h₂⟩ := reads_of_expect hs₁ (by decide) hassign
    obtain ⟨e, rfl, he, -⟩ := (exprSound n).expr (h₂.standard hs₁) hexpr
    exact ⟨.assign name assign e, rfl, h₁.append (h₂.append he)⟩
  | print =>
    obtain ⟨_, s₁, _, hword, hexpr, rfl⟩ := stmtOf_print_eq_ok.mp h
    obtain ⟨word, -, h₁⟩ := reads_of_expect hs (by decide) hword
    obtain ⟨e, rfl, he, -⟩ := (exprSound n).expr (h₁.standard hs) hexpr
    exact ⟨.print word e, rfl, h₁.append he⟩
  | forEach =>
    obtain ⟨_, s₁, _, s₂, _, s₃, _, s₄, _, s₅, _, s₆, _, hword, hname, hcolon, hexpr, hopening,
      hbody, hclosing, rfl⟩ := stmtOf_forEach_eq_ok.mp h
    obtain ⟨word, -, h₁⟩ := reads_of_expect hs (by decide) hword
    have hs₁ := h₁.standard hs
    obtain ⟨name, rfl, h₂⟩ := reads_of_ident hs₁ hname
    have hs₂ := h₂.standard hs₁
    obtain ⟨colon, -, h₃⟩ := reads_of_expect hs₂ (by decide) hcolon
    have hs₃ := h₃.standard hs₂
    obtain ⟨e, rfl, h₄, -⟩ := (exprSound n).expr hs₃ hexpr
    have hs₄ := h₄.standard hs₃
    obtain ⟨opening, -, h₅⟩ := reads_of_expect hs₄ (by decide) hopening
    have hs₅ := h₅.standard hs₄
    obtain ⟨body, rfl, h₆⟩ := ih.block hs₅ hbody
    obtain ⟨closing, -, h₇⟩ := reads_of_expect (h₆.standard hs₅) (by decide) hclosing
    exact ⟨.forEach word name colon e opening body closing, rfl,
      h₁.append (h₂.append (h₃.append (h₄.append (h₅.append (h₆.append h₇)))))⟩

theorem StmtSound.block_succ (ih : StmtSound n) {b : Block} (hs : s.Standard)
    (h : Grammar.block .standard (n + 1) s = .ok b s') :
    ∃ d : SeqPhrase, d.tree = b ∧ Reads d.tokens s s' := by
  obtain ⟨_, u, t, hfirst, ht, hrest⟩ := block_eq_ok.mp h
  obtain ⟨first, rfl, h₁⟩ := ih.stmt hs hfirst
  have hu := h₁.standard hs
  obtain ⟨hk, v, t', hadv, ht', htail⟩ | ⟨-, rfl, rfl⟩ := hrest
  · have h₂ := reads_of_advance hu hadv (by rw [hk]; decide)
    obtain ⟨-, rfl, rfl⟩ | ⟨-, _, hblock, rfl⟩ := htail
    · exact ⟨.trailing first ⟨t, hk⟩, rfl, h₁.append h₂⟩
    · obtain ⟨rest, rfl, h₃⟩ := ih.block (h₂.standard hu) hblock
      exact ⟨.more first ⟨t, hk⟩ rest, rfl, h₁.append (h₂.append h₃)⟩
  · exact ⟨.one first, rfl, h₁⟩

end Step

/-- What the parser makes of statements are trees of derivations. -/
theorem stmtSound (n : Nat) : StmtSound n := by
  induction n with
  | zero => exact stmtSound_zero
  | succ n ih =>
    refine ⟨fun hs h => ?_, ih.stmtOf_succ, ih.block_succ⟩
    obtain ⟨t, form, -, -, hstmt⟩ := stmt_eq_ok.mp h
    exact ih.stmtOf hs hstmt

end Grammar

/-- What the parser makes of a program is the tree of a derivation, and it reads what that derives
and the token that ends the text. -/
theorem Parser.program_sound {s u s' : TokenStream} {b : Block} (hu : u.Standard)
    (hstart : start s = .ok () u) (h : program .standard s = .ok b s') :
    ∃ (d : SeqPhrase) (t : Terminal .endOfText), d.tree = b ∧ Reads d.tokens u s' ∧
      s'.current = some t.1 := by
  obtain ⟨u', v, t, hstart', hblock, hexpect⟩ := program_eq_ok.mp h
  cases hstart.symm.trans hstart'
  obtain ⟨d, rfl, hd⟩ := (Grammar.stmtSound _).block hu hblock
  obtain ⟨hk, hadv⟩ := expect_eq_ok.mp hexpect
  obtain rfl := eq_of_advance (hd.standard hu) hadv hk
  exact ⟨d, ⟨t, hk⟩, rfl, hd, (advance_eq_ok.mp hadv).1⟩

end ListScript
