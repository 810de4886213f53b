import ListScript.Proofs.Settled

/-!
# Calls inside calls

The parsers of a grammar call one another, each at some place among the tokens. A bound cuts a parser
off exactly when calls nest as deeply as the bound allows.

* `Prompt x` : the parser `x` is never cut off, since it calls none that has a bound
  (`Parser.prompt_advance` and so on);
* `Grammar.Routine`, `Grammar.Entry` : the parsers of a grammar, and one of them at a place among the
  tokens;
* `Grammar.Calls rules x y` : the parser `x` calls `y`, with one case for each call in the grammar;
* `Grammar.Nested rules n x y` : so it does through `n` calls, one inside the other;
* `Grammar.Entry.CutOff rules n x` : the bound `n` cuts `x` off. Then it does so with a parser that `x`
  calls (`Grammar.exists_call`), and the other way round (`Grammar.Calls.cutOff`);
* `Grammar.cutOff_iff` : the bound `n` cuts a parser off just if calls nest `n` deep.
-/

namespace ListScript

variable {α β : Type}

/-! ## Parsers that no bound cuts off -/

/-- The parser is never cut off. -/
def Prompt (x : Parser α) : Prop := ∀ s, ¬ Endless (x s)

section Bind

variable {x : Parser α} {f : α → Parser β} {s u : TokenStream}

/-- Where two parsers one after the other are cut off, the first one is, or the second one after it. -/
theorem Endless.of_bind (h : Endless ((x >>= f) s)) :
    Endless (x s) ∨ ∃ a t, x s = .ok a t ∧ Endless (f a t) := by
  obtain ⟨u, hu⟩ := h
  obtain hx | ⟨a, t, hx, hf⟩ := step_bind_eq_error.mp hu
  · exact .inl ⟨u, hx⟩
  · exact .inr ⟨a, t, hx, u, hf⟩

theorem Endless.discard_bind {f : PUnit → Parser β} {a : α} (hx : x s = .ok a u)
    (h : Endless (f ⟨⟩ u)) : Endless ((discard x >>= f) s) :=
  .bind_right (a := ⟨⟩) (step_discard_eq_ok.mpr ⟨a, hx⟩) h

namespace Prompt

/-- After a parser that is not cut off it is the next one. -/
theorem of_bind (hx : Prompt x) (h : Endless ((x >>= f) s)) :
    ∃ a t, x s = .ok a t ∧ Endless (f a t) :=
  h.of_bind.resolve_left (hx s)

theorem of_discard_bind {f : PUnit → Parser β} (hx : Prompt x)
    (h : Endless ((Functor.discard x >>= f) s)) : ∃ a t, x s = .ok a t ∧ Endless (f ⟨⟩ t) := by
  obtain h | ⟨_, t, ht, h⟩ := h.of_bind
  · obtain ⟨u, hu⟩ := h
    exact absurd ⟨u, step_discard_eq_error.mp hu⟩ (hx s)
  · obtain ⟨a, ha⟩ := step_discard_eq_ok.mp ht
    exact ⟨a, t, ha, h⟩

/-- Before parsers that are not cut off it is the first one. -/
theorem of_bind_left (hf : ∀ a, Prompt (f a)) (h : Endless ((x >>= f) s)) : Endless (x s) :=
  h.of_bind.resolve_right fun ⟨a, t, _, h⟩ => hf a t h

theorem bind (hx : Prompt x) (hf : ∀ a, Prompt (f a)) : Prompt (x >>= f) :=
  fun s h => hx s (of_bind_left hf h)

theorem pure (a : α) : Prompt (pure a : Parser α) := fun s ⟨u, hu⟩ => by cases hu

theorem get : Prompt (get : Parser TokenStream) := fun s ⟨u, hu⟩ => by cases hu

theorem error (e : SyntaxError) : Prompt (throw (.error e) : Parser α) :=
  fun s ⟨u, hu⟩ => by cases hu

theorem discard (hx : Prompt x) : Prompt (discard x : Parser PUnit) :=
  fun s ⟨u, hu⟩ => hx s ⟨u, step_discard_eq_error.mp hu⟩

end Prompt

/-- What goes on after a parser is cut off, if with some bound that parser leads to where it is. -/
theorem Growing.endless_bind {f : Nat → Parser α} {g : α → Parser β} {m : Nat} {a : α}
    (hf : Growing f) (hm : f m s = .ok a u) (h : Endless (g a u)) (n : Nat) :
    Endless ((f n >>= g) s) := by
  by_cases hn : Endless (f n s)
  · exact hn.bind
  · have hm' : ¬ Endless (f m s) := by
      rintro ⟨v, hv⟩
      cases hm.symm.trans hv
    exact .bind_right ((hf.eq_of_not_endless hn hm').trans hm) h

end Bind

theorem Lexicon.token_ne_endless (lexicon : Lexicon) (r : Reader) :
    lexicon.token r ≠ .error (.defect .endless) := by
  unfold token
  split
  · exact nofun
  · unfold numeralToken
    split
    · exact nofun
    · split <;> exact nofun
  · unfold symbolToken
    split <;> exact nofun

theorem TokenStream.advance_ne_endless (s u : TokenStream) :
    s.advance ≠ .error (.defect .endless) u := by
  unfold advance
  split
  · exact nofun
  · split
    · exact nofun
    · split
      · exact nofun
      · next stop htoken =>
        intro h
        cases h
        exact s.lexicon.token_ne_endless _ htoken
    · split <;> exact nofun

namespace Parser

variable {kind : Kind}

theorem prompt_ofExcept (x : Except TokenError α) : Prompt (ofExcept x) := by
  cases x with
  | ok a => exact .pure a
  | error e => exact .error _

theorem prompt_current : Prompt current := .bind .get fun s => prompt_ofExcept s.token

theorem prompt_currentKind : Prompt currentKind := .bind .get fun s => prompt_ofExcept s.kind

theorem prompt_step : Prompt step := by
  rintro s ⟨u, hu⟩
  obtain ⟨cause, hadv, hcause⟩ := step_eq_error hu
  cases cause with
  | error e => cases hcause
  | defect defect =>
    cases hcause
    exact s.advance_ne_endless u hadv

theorem prompt_advance : Prompt advance := by
  refine .bind prompt_current fun token => .bind .get fun s => ?_
  cases s.hasNext with
  | true => exact .bind prompt_step.discard fun _ => .pure token
  | false => exact .pure token

theorem prompt_unexpected (expected : String) : Prompt (unexpected expected : Parser α) :=
  .bind .get fun _ => .error _

theorem prompt_expect : Prompt (expect kind) := by
  refine .bind prompt_currentKind fun k => ?_
  by_cases hk : k = kind
  · rw [if_pos hk]
    exact prompt_advance
  · rw [if_neg hk]
    exact prompt_unexpected _

theorem prompt_isAt : Prompt (isAt kind) := .bind prompt_currentKind fun _ => .pure _

theorem prompt_ident : Prompt ident := .bind prompt_expect fun _ => .pure _

theorem prompt_atom : Prompt atom := by
  refine .bind prompt_currentKind fun k => ?_
  cases k
  case numeral =>
    exact .bind prompt_advance fun t => .bind (prompt_ofExcept t.int) fun _ => .pure _
  case boolean =>
    exact .bind prompt_advance fun t => .bind (prompt_ofExcept t.bool) fun _ => .pure _
  case identifier => exact .bind prompt_advance fun _ => .pure _
  all_goals exact prompt_unexpected _

end Parser

namespace Grammar
open ListScript.Parser

/-! ## Calls -/

/-- The parsers of a grammar, with what they are given besides the bound. -/
inductive Routine where
  | expr (power : Power)
  | proceed (power : Power) (left : Expr)
  | opening (form : Opening)
  | continuation (form : Continuation) (left : Expr) (power : Power)
  | exprs
  | stmt
  | stmtOf (form : StmtForm)
  | block

/-- Both are the same parser, whatever it is given. -/
def Routine.Same : Routine → Routine → Prop
  | .expr _, .expr _ => True
  | .proceed _ _, .proceed _ _ => True
  | .opening _, .opening _ => True
  | .continuation _ _ _, .continuation _ _ _ => True
  | .exprs, .exprs => True
  | .stmt, .stmt => True
  | .stmtOf _, .stmtOf _ => True
  | .block, .block => True
  | _, _ => False

/-- A parser at a place among the tokens. -/
structure Entry where
  routine : Routine
  stream : TokenStream

/-- With the bound `n` the parser is cut off. -/
def Entry.CutOff (rules : Rules) (n : Nat) : Entry → Prop
  | ⟨.expr power, s⟩ => Endless (expr rules n power s)
  | ⟨.proceed power left, s⟩ => Endless (proceed rules n power left s)
  | ⟨.opening form, s⟩ => Endless (opening rules n form s)
  | ⟨.continuation form left power, s⟩ => Endless (continuation rules n form left power s)
  | ⟨.exprs, s⟩ => Endless (exprs rules n s)
  | ⟨.stmt, s⟩ => Endless (stmt rules n s)
  | ⟨.stmtOf form, s⟩ => Endless (stmtOf rules n form s)
  | ⟨.block, s⟩ => Endless (block rules n s)

/-- The first parser calls the second. Between the two are the single steps that it takes, and what
other parsers have given that it called before. -/
inductive Calls (rules : Rules) : Entry → Entry → Prop
  | expr_opening {power : Power} {s : TokenStream} {t : Token} {form : Opening}
    (current : s.current = some t) (begins : rules.opening t.kind = some form) :
    Calls rules ⟨.expr power, s⟩ ⟨.opening form, s⟩
  | expr_proceed {m : Nat} {power : Power} {s u : TokenStream} {t : Token} {form : Opening}
    {left : Expr} (current : s.current = some t) (begins : rules.opening t.kind = some form)
    (opening : opening rules m form s = .ok left u) :
    Calls rules ⟨.expr power, s⟩ ⟨.proceed power left, u⟩
  | proceed_continuation {power tight : Power} {s : TokenStream} {t : Token} {form : Continuation}
    {left : Expr} (current : s.current = some t)
    (goesOn : rules.continuation t.kind = some (tight, form)) (tighter : power < tight) :
    Calls rules ⟨.proceed power left, s⟩ ⟨.continuation form left tight, s⟩
  | proceed_proceed {m : Nat} {power tight : Power} {s u : TokenStream} {t : Token}
    {form : Continuation} {left next : Expr} (current : s.current = some t)
    (goesOn : rules.continuation t.kind = some (tight, form)) (tighter : power < tight)
    (continuation : continuation rules m form left tight s = .ok next u) :
    Calls rules ⟨.proceed power left, s⟩ ⟨.proceed power next, u⟩
  | unary_expr {s u : TokenStream} {t : Token} (operator : advance s = .ok t u) :
    Calls rules ⟨.opening .unary, s⟩ ⟨.expr .unary, u⟩
  | group_expr {s u : TokenStream} {t : Token} (paren : expect .openParen s = .ok t u) :
    Calls rules ⟨.opening .group, s⟩ ⟨.expr .lowest, u⟩
  | list_exprs {s u : TokenStream} {t : Token} (bracket : expect .openBracket s = .ok t u) :
    Calls rules ⟨.opening .list, s⟩ ⟨.exprs, u⟩
  | binary_expr {s u : TokenStream} {t : Token} {left : Expr} {power : Power}
    (operator : advance s = .ok t u) :
    Calls rules ⟨.continuation .binary left power, s⟩ ⟨.expr power, u⟩
  | cons_expr {s u : TokenStream} {t : Token} {left : Expr} {power : Power}
    (operator : expect .cons s = .ok t u) :
    Calls rules ⟨.continuation .cons left power, s⟩ ⟨.expr .lowest, u⟩
  | exprs_expr {s : TokenStream} : Calls rules ⟨.exprs, s⟩ ⟨.expr .lowest, s⟩
  | exprs_exprs {m : Nat} {s u v : TokenStream} {t : Token} {item : Expr}
    (expr : expr rules m .lowest s = .ok item u) (current : u.current = some t)
    (comma : t.kind = .comma) (step : advance u = .ok t v) : Calls rules ⟨.exprs, s⟩ ⟨.exprs, v⟩
  | stmt_stmtOf {s : TokenStream} {t : Token} {form : StmtForm} (current : s.current = some t)
    (begins : rules.form t.kind = some form) : Calls rules ⟨.stmt, s⟩ ⟨.stmtOf form, s⟩
  | declare_expr {s u v w : TokenStream} {t t' : Token} {x : Ident}
    (word : expect .varWord s = .ok t u) (name : ident u = .ok x v)
    (assign : expect .assign v = .ok t' w) :
    Calls rules ⟨.stmtOf .declare, s⟩ ⟨.expr .lowest, w⟩
  | assign_expr {s u v : TokenStream} {t : Token} {x : Ident} (name : ident s = .ok x u)
    (assign : expect .assign u = .ok t v) : Calls rules ⟨.stmtOf .assign, s⟩ ⟨.expr .lowest, v⟩
  | print_expr {s u : TokenStream} {t : Token} (word : expect .printWord s = .ok t u) :
    Calls rules ⟨.stmtOf .print, s⟩ ⟨.expr .lowest, u⟩
  | forEach_expr {s u v w : TokenStream} {t t' : Token} {x : Ident}
    (word : expect .forWord s = .ok t u) (name : ident u = .ok x v)
    (colon : expect .colon v = .ok t' w) :
    Calls rules ⟨.stmtOf .forEach, s⟩ ⟨.expr .lowest, w⟩
  | forEach_block {m : Nat} {s u v w y z : TokenStream} {t t' t'' : Token} {x : Ident} {items : Expr}
    (word : expect .forWord s = .ok t u) (name : ident u = .ok x v)
    (colon : expect .colon v = .ok t' w) (expr : expr rules m .lowest w = .ok items y)
    (brace : expect .openBrace y = .ok t'' z) : Calls rules ⟨.stmtOf .forEach, s⟩ ⟨.block, z⟩
  | block_stmt {s : TokenStream} : Calls rules ⟨.block, s⟩ ⟨.stmt, s⟩
  | block_block {m : Nat} {s u v : TokenStream} {t t' : Token} {first : Stmt}
    (stmt : stmt rules m s = .ok first u) (current : u.current = some t)
    (semicolon : t.kind = .semicolon) (step : advance u = .ok t v) (next : v.current = some t')
    (goesOn : ¬ (t'.kind = .endOfText ∨ t'.kind = .closeBrace)) :
    Calls rules ⟨.block, s⟩ ⟨.block, v⟩

/-- Through `n` calls, one inside the other, the first parser comes to the second. -/
inductive Nested (rules : Rules) : Nat → Entry → Entry → Prop
  | here (x : Entry) : Nested rules 0 x x
  | deeper {n : Nat} {x y z : Entry} (call : Calls rules x y) (rest : Nested rules n y z) :
    Nested rules (n + 1) x z

variable {rules : Rules} {n : Nat} {s : TokenStream} {x y z : Entry}

/-! ### A parser that is cut off -/

theorem exists_call_expr {p : Power} (h : Endless (expr rules (n + 1) p s)) :
    ∃ y, Calls rules ⟨.expr p, s⟩ y ∧ y.CutOff rules n := by
  rw [expr] at h
  obtain ⟨k, u, hk, h⟩ := prompt_currentKind.of_bind h
  obtain ⟨rfl, t, ht, rfl⟩ := currentKind_eq_ok.mp hk
  cases hform : rules.opening t.kind with
  | none =>
    rw [hform] at h
    exact absurd h (prompt_unexpected _ u)
  | some form =>
    rw [hform] at h
    obtain h | ⟨left, v, hleft, h⟩ := h.of_bind
    · exact ⟨_, .expr_opening ht hform, h⟩
    · exact ⟨_, .expr_proceed ht hform hleft, h⟩

theorem exists_call_proceed {p : Power} {left : Expr} (h : Endless (proceed rules (n + 1) p left s)) :
    ∃ y, Calls rules ⟨.proceed p left, s⟩ y ∧ y.CutOff rules n := by
  rw [proceed] at h
  obtain ⟨k, u, hk, h⟩ := prompt_currentKind.of_bind h
  obtain ⟨rfl, t, ht, rfl⟩ := currentKind_eq_ok.mp hk
  rcases hcont : rules.continuation t.kind with _ | ⟨tight, form⟩
  · rw [hcont] at h
    exact absurd h (Prompt.pure left u)
  · simp only [hcont] at h
    by_cases hlt : p < tight
    · rw [if_pos hlt] at h
      obtain h | ⟨next, v, hnext, h⟩ := h.of_bind
      · exact ⟨_, .proceed_continuation ht hcont hlt, h⟩
      · exact ⟨_, .proceed_proceed ht hcont hlt hnext, h⟩
    · rw [if_neg hlt] at h
      exact absurd h (Prompt.pure left u)

theorem exists_call_opening {form : Opening} (h : Endless (opening rules (n + 1) form s)) :
    ∃ y, Calls rules ⟨.opening form, s⟩ y ∧ y.CutOff rules n := by
  cases form with
  | atom => exact absurd h (prompt_atom s)
  | unary =>
    obtain ⟨t, u, ht, h⟩ := prompt_advance.of_bind h
    refine ⟨_, .unary_expr ht, Prompt.of_bind_left (fun operand => ?_) h⟩
    cases hop : t.kind.unaryOp? with
    | some op => exact .pure _
    | none => exact fun _ ⟨_, hu⟩ => by cases hu
  | group =>
    obtain ⟨t, u, ht, h⟩ := prompt_expect.of_discard_bind h
    exact ⟨_, .group_expr ht,
      Prompt.of_bind_left (fun _ => .bind prompt_expect.discard fun _ => .pure _) h⟩
  | list =>
    obtain ⟨t, u, ht, h⟩ := prompt_expect.of_discard_bind h
    exact ⟨_, .list_exprs ht,
      Prompt.of_bind_left (fun _ => .bind prompt_expect.discard fun _ => .pure _) h⟩

theorem exists_call_continuation {form : Continuation} {left : Expr} {p : Power}
    (h : Endless (continuation rules (n + 1) form left p s)) :
    ∃ y, Calls rules ⟨.continuation form left p, s⟩ y ∧ y.CutOff rules n := by
  cases form with
  | binary =>
    obtain ⟨t, u, ht, h⟩ := prompt_advance.of_bind h
    refine ⟨_, .binary_expr ht, Prompt.of_bind_left (fun right => ?_) h⟩
    cases hop : t.kind.binaryOp? with
    | some op => exact .pure _
    | none => exact fun _ ⟨_, hu⟩ => by cases hu
  | cons =>
    obtain ⟨t, u, ht, h⟩ := prompt_expect.of_discard_bind h
    exact ⟨_, .cons_expr ht, Prompt.of_bind_left (fun _ => .pure _) h⟩

theorem exists_call_exprs (h : Endless (exprs rules (n + 1) s)) :
    ∃ y, Calls rules ⟨.exprs, s⟩ y ∧ y.CutOff rules n := by
  obtain h | ⟨item, u, hitem, h⟩ := Endless.of_bind h
  · exact ⟨_, .exprs_expr, h⟩
  · obtain ⟨more, v, hmore, h⟩ := prompt_isAt.of_bind h
    obtain ⟨rfl, t, ht, rfl⟩ := isAt_eq_ok.mp hmore
    by_cases hk : t.kind = .comma
    · simp only [hk, decide_true, if_true] at h
      obtain ⟨t', w, ht', h⟩ := prompt_advance.of_discard_bind h
      cases (advance_eq_ok.mp ht').1.symm.trans ht
      exact ⟨_, .exprs_exprs hitem ht hk ht', Prompt.of_bind_left (fun _ => .pure _) h⟩
    · simp only [hk, decide_false] at h
      exact absurd h (Prompt.pure _ v)

theorem exists_call_stmt (h : Endless (stmt rules (n + 1) s)) :
    ∃ y, Calls rules ⟨.stmt, s⟩ y ∧ y.CutOff rules n := by
  rw [stmt] at h
  obtain ⟨k, u, hk, h⟩ := prompt_currentKind.of_bind h
  obtain ⟨rfl, t, ht, rfl⟩ := currentKind_eq_ok.mp hk
  cases hform : rules.form t.kind with
  | none =>
    rw [hform] at h
    exact absurd h (prompt_unexpected _ u)
  | some form =>
    rw [hform] at h
    exact ⟨_, .stmt_stmtOf ht hform, h⟩

theorem exists_call_stmtOf {form : StmtForm} (h : Endless (stmtOf rules (n + 1) form s)) :
    ∃ y, Calls rules ⟨.stmtOf form, s⟩ y ∧ y.CutOff rules n := by
  cases form with
  | declare =>
    obtain ⟨t, u, ht, h⟩ := prompt_expect.of_discard_bind h
    obtain ⟨x, v, hx, h⟩ := prompt_ident.of_bind h
    obtain ⟨t', w, ht', h⟩ := prompt_expect.of_discard_bind h
    exact ⟨_, .declare_expr ht hx ht', Prompt.of_bind_left (fun _ => .pure _) h⟩
  | assign =>
    obtain ⟨x, u, hx, h⟩ := prompt_ident.of_bind h
    obtain ⟨t, v, ht, h⟩ := prompt_expect.of_discard_bind h
    exact ⟨_, .assign_expr hx ht, Prompt.of_bind_left (fun _ => .pure _) h⟩
  | print =>
    obtain ⟨t, u, ht, h⟩ := prompt_expect.of_discard_bind h
    exact ⟨_, .print_expr ht, Prompt.of_bind_left (fun _ => .pure _) h⟩
  | forEach =>
    obtain ⟨t, u, ht, h⟩ := prompt_expect.of_discard_bind h
    obtain ⟨x, v, hx, h⟩ := prompt_ident.of_bind h
    obtain ⟨t', w, ht', h⟩ := prompt_expect.of_discard_bind h
    obtain h | ⟨items, y, hitems, h⟩ := h.of_bind
    · exact ⟨_, .forEach_expr ht hx ht', h⟩
    · obtain ⟨t'', z, ht'', h⟩ := prompt_expect.of_discard_bind h
      exact ⟨_, .forEach_block ht hx ht' hitems ht'',
        Prompt.of_bind_left (fun _ => .bind prompt_expect.discard fun _ => .pure _) h⟩

theorem exists_call_block (h : Endless (block rules (n + 1) s)) :
    ∃ y, Calls rules ⟨.block, s⟩ y ∧ y.CutOff rules n := by
  obtain h | ⟨first, u, hfirst, h⟩ := Endless.of_bind h
  · exact ⟨_, .block_stmt, h⟩
  · obtain ⟨more, v, hmore, h⟩ := prompt_isAt.of_bind h
    obtain ⟨rfl, t, ht, rfl⟩ := isAt_eq_ok.mp hmore
    by_cases hk : t.kind = .semicolon
    · simp only [hk, decide_true, if_true] at h
      obtain ⟨t', w, ht', h⟩ := prompt_advance.of_discard_bind h
      cases (advance_eq_ok.mp ht').1.symm.trans ht
      obtain ⟨_, y, hy, h⟩ := prompt_isAt.of_bind h
      obtain ⟨rfl, next, hnext, rfl⟩ := isAt_eq_ok.mp hy
      obtain ⟨_, y, hy, h⟩ := prompt_isAt.of_bind h
      obtain ⟨rfl, next', hnext', rfl⟩ := isAt_eq_ok.mp hy
      cases hnext.symm.trans hnext'
      by_cases hlast : next.kind = .endOfText ∨ next.kind = .closeBrace
      · rw [if_pos (by simpa using hlast)] at h
        exact absurd h (Prompt.pure _ y)
      · rw [if_neg (by simpa using hlast)] at h
        exact ⟨_, .block_block hfirst ht hk ht' hnext hlast,
          Prompt.of_bind_left (fun _ => .pure _) h⟩
    · simp only [hk, decide_false] at h
      exact absurd h (Prompt.pure _ v)

/-- A parser that is cut off calls one that is. -/
theorem exists_call (h : x.CutOff rules (n + 1)) : ∃ y, Calls rules x y ∧ y.CutOff rules n := by
  obtain ⟨routine, s⟩ := x
  cases routine with
  | expr => exact exists_call_expr h
  | proceed => exact exists_call_proceed h
  | opening => exact exists_call_opening h
  | continuation => exact exists_call_continuation h
  | exprs => exact exists_call_exprs h
  | stmt => exact exists_call_stmt h
  | stmtOf => exact exists_call_stmtOf h
  | block => exact exists_call_block h

/-! ### A call that is cut off -/

/-- A parser is cut off that calls one that is. -/
theorem Calls.cutOff (h : Calls rules x y) (hy : y.CutOff rules n) : x.CutOff rules (n + 1) := by
  cases h with
  | expr_opening current begins =>
    show Endless (expr rules (n + 1) _ _)
    rw [expr, currentKind_bind current, begins]
    exact Endless.bind hy
  | expr_proceed current begins opening =>
    show Endless (expr rules (n + 1) _ _)
    rw [expr, currentKind_bind current, begins]
    exact (growing_opening rules _).endless_bind opening hy n
  | proceed_continuation current goesOn tighter =>
    show Endless (proceed rules (n + 1) _ _ _)
    rw [proceed, currentKind_bind current]
    simp only [goesOn, if_pos tighter]
    exact Endless.bind hy
  | proceed_proceed current goesOn tighter continuation =>
    show Endless (proceed rules (n + 1) _ _ _)
    rw [proceed, currentKind_bind current]
    simp only [goesOn, if_pos tighter]
    exact (growing_continuation rules _ _ _).endless_bind continuation hy n
  | unary_expr operator => exact .bind_right operator (.bind hy)
  | group_expr paren => exact .discard_bind paren (.bind hy)
  | list_exprs bracket => exact .discard_bind bracket (.bind hy)
  | binary_expr operator => exact .bind_right operator (.bind hy)
  | cons_expr operator => exact .discard_bind operator (.bind hy)
  | exprs_expr => exact Endless.bind hy
  | exprs_exprs expr current comma step =>
    refine (growing_expr rules .lowest).endless_bind expr ?_ n
    rw [isAt_bind current]
    simp only [comma, decide_true, if_true]
    exact .discard_bind step (.bind hy)
  | stmt_stmtOf current begins =>
    show Endless (stmt rules (n + 1) _)
    rw [stmt, currentKind_bind current, begins]
    exact hy
  | declare_expr word name assign =>
    exact .discard_bind word (.bind_right name
      (.discard_bind assign (.bind hy)))
  | assign_expr name assign =>
    exact .bind_right name (.discard_bind assign (.bind hy))
  | print_expr word => exact .discard_bind word (.bind hy)
  | forEach_expr word name colon =>
    exact .discard_bind word (.bind_right name
      (.discard_bind colon (.bind hy)))
  | forEach_block word name colon expr brace =>
    refine .discard_bind word (.bind_right name
      (.discard_bind colon ?_))
    refine (growing_expr rules .lowest).endless_bind expr ?_ n
    exact .discard_bind brace (.bind hy)
  | block_stmt => exact Endless.bind hy
  | block_block stmt current semicolon step next goesOn =>
    refine (growing_stmt rules).endless_bind stmt ?_ n
    rw [isAt_bind current]
    simp only [semicolon, decide_true, if_true]
    refine .discard_bind step ?_
    rw [isAt_bind next, isAt_bind next, if_neg (by simpa using goesOn)]
    exact .bind hy

theorem cutOff_zero (x : Entry) : x.CutOff rules 0 := by
  obtain ⟨routine, s⟩ := x
  cases routine <;> exact endless_zero s

/-- A bound cuts a parser off just if calls nest as deeply. -/
theorem cutOff_iff : x.CutOff rules n ↔ ∃ y, Nested rules n x y := by
  constructor
  · intro h
    induction n generalizing x with
    | zero => exact ⟨x, .here x⟩
    | succ n ih =>
      obtain ⟨y, hcall, hy⟩ := exists_call h
      obtain ⟨z, hz⟩ := ih hy
      exact ⟨z, .deeper hcall hz⟩
  · rintro ⟨y, h⟩
    induction h with
    | here x => exact cutOff_zero x
    | deeper call _ ih => exact call.cutOff ih

end Grammar

end ListScript
