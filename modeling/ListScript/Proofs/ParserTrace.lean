import ListScript.Proofs.Agenda
import ListScript.Proofs.ParserSteps
import ListScript.Proofs.TokenRun

/-!
# A parser follows an agenda

Whatever a parser reads is what may come next, and it stops at the first token that may not.

* `TokenStream.left` : a bound on the tokens that are left; `Standard.advance_ne_defect` : the steps of
  the streams of the language have no defects;
* `Along m s σ s' τ` : from `s` to `s'` the parser has read `m` tokens or more, and the agenda `σ` has
  become one that takes the token at hand as `τ` does (`Along.trans`);
* `Fails s σ stop s'` : the parser has stopped at the first token that may not come next, or because
  there was none (`Fails.after`);
* `Traced m s σ τ r` : the result `r` of a parser is one or the other (`Parser.traced_bind`);
* `StmtForm.opener` : the kind of token that a form of statements begins with;
* `Grammar.ExprTraced n`, `Grammar.StmtTraced n` : so it is with a bound of `n` that is large enough for
  what is left (`Grammar.exprTraced`, `Grammar.stmtTraced`);
* `Parser.ends_body` : so it is for a program up to the end of the text;
* `Parser.Begins s u`, `parse_of_begins` : a parser of `s` begins to read in `u`.
-/

namespace ListScript

/-! ## Steps without a defect -/

namespace Reader

/-- The lexeme that is looked for is no separator and stands at the beginning of some text. -/
theorem last_of_significant (r : Reader) : Ends (fun found s => found = true →
      ∃ lexeme text, s.last = some lexeme ∧ s.pattern.lexeme? text = some lexeme ∧
        lexeme.category ≠ some .blank)
    (fun _ _ => True) (significant r) := by
  fun_induction significant r with
  | case1 => exact .error trivial
  | case2 => exact .ok (absurd · Bool.false_ne_true)
  | case3 => exact .error trivial
  | case4 r s hm t ht hb hlt ih => exact ih
  | case5 r s hm t ht hb =>
    refine .ok fun _ => ?_
    unfold take at ht
    split at ht
    · next lexeme hl =>
      cases ht
      exact ⟨lexeme, s.rest, rfl, hl, hb⟩
    · split at ht <;> cases ht

end Reader

namespace TokenStream

variable {s s' : TokenStream}

theorem Standard.advance_ne_defect (hs : s.Standard) (defect : Defect) :
    s.advance ≠ .error (.defect defect) s' := by
  intro h
  have hlast := Reader.last_of_significant s.reader
  have hpattern := Reader.pattern_significant s.reader
  unfold advance at h
  split at h
  · cases h
  · split at h
    · cases h
    · next r hr =>
      split at h
      · cases h
      · next stop htoken =>
        cases h
        obtain ⟨lexeme, text, hlexeme, hfound, hblank⟩ := hlast.of_ok hr rfl
        rw [hpattern.of_ok hr, hs.pattern, ← hs.lexicon] at hfound
        exact Lexicon.token_ne_defect hlexeme hfound hblank htoken
    · split at h <;> cases h

/-- How many tokens are left at most, the one at hand among them unless it ends the text. -/
def left (s : TokenStream) : Nat := if s.ended then 0 else s.reader.size + 1

theorem left_of_ended (h : s.ended = true) : s.left = 0 := by
  rw [left, if_pos h]

theorem left_of_not_ended (h : s.ended = false) : s.left = s.reader.size + 1 := by
  rw [left, if_neg (by rw [h]; exact nofun)]

/-- A step over a token leaves less. -/
theorem Standard.left_lt_of_advance {k : Kind} (hs : s.Standard) (h : s.advance = .ok k s') :
    s'.left < s.left := by
  obtain ⟨hended, -⟩ := advance_eq_ok.mp h
  rw [left_of_not_ended hended]
  obtain hlt | ⟨hended', -⟩ := hs.size_of_advance h
  · unfold left
    split <;> omega
  · rw [left_of_ended hended']
    exact Nat.succ_pos _

end TokenStream

/-- What has been read is no longer left. -/
theorem Reads.left_le {ts : List Token} {s s' : TokenStream} (h : Reads ts s s')
    (hs : s.Standard) : s'.left + ts.length ≤ s.left := by
  induction h with
  | nil => exact Nat.le_refl _
  | cons _ _ step _ ih =>
    have hle := ih (hs.of_advance step)
    have hlt := hs.left_lt_of_advance step
    rw [List.length_cons]
    omega

/-! ## Following an agenda -/

/-- A stream of the language with a token at hand. -/
structure TokenStream.Ready (s : TokenStream) : Prop extends s.Standard where
  exists_current : ∃ t, s.current = some t

/-- From `s` to `s'` there are `m` tokens or more. They lead from the agenda `σ` to one that takes the
token at hand in `s'` as `τ` does. -/
def Along (m : Nat) (s : TokenStream) (σ : Agenda) (s' : TokenStream) (τ : Agenda) : Prop :=
  ∃ ts t σ', m ≤ ts.length ∧ Reads ts s s' ∧ s'.current = some t ∧
    σ.run (ts.map Token.kind) = some σ' ∧ σ'.feed t.kind = τ.feed t.kind

/-- A parser that began in `s` with the agenda `σ` has stopped. -/
inductive Fails (s : TokenStream) (σ : Agenda) : Stop SyntaxError → TokenStream → Prop
  /-- The token at hand may not come next. -/
  | unexpected {ts : List Token} {t : Token} {s' : TokenStream} {σ' : Agenda} {expected : String}
    (reads : Reads ts s s') (current : s'.current = some t)
    (run : σ.run (ts.map Token.kind) = some σ') (feed : σ'.feed t.kind = none) :
    Fails s σ (.error (.unexpected (if t.kind = .endOfText then "EOF" else t.text) expected
      t.span.start)) s'
  /-- The token at hand may come next, and there is none after it. -/
  | token {ts : List Token} {t : Token} {s' s'' : TokenStream} {σ' τ : Agenda} {e : TokenError}
    (reads : Reads ts s s') (current : s'.current = some t) (ended : s'.ended = false)
    (run : σ.run (ts.map Token.kind) = some σ') (feed : σ'.feed t.kind = some τ)
    (step : s'.advance = .error (.error e) s'') : Fails s σ (.error (.token e)) s''

/-- The result of a parser that began in `s` with the agenda `σ`: it has followed the agenda up to
`τ`, or it has stopped at the first token that may not come next. -/
def Traced {α : Type} (m : Nat) (s : TokenStream) (σ τ : Agenda) :
    EStateM.Result (Stop SyntaxError) TokenStream α → Prop :=
  Ends (fun _ s' => Along m s σ s' τ) (Fails s σ)

section Along

variable {m k : Nat} {s u v : TokenStream} {σ τ ρ : Agenda} {t : Token}

theorem Along.ready (h : Along m s σ u τ) (hs : s.Standard) : u.Ready := by
  obtain ⟨ts, t, σ', -, hreads, ht, -⟩ := h
  exact ⟨hreads.standard hs, t, ht⟩

theorem Along.left_le (h : Along m s σ u τ) (hs : s.Standard) : u.left + m ≤ s.left := by
  obtain ⟨ts, t, σ', hm, hreads, -⟩ := h
  exact (Nat.add_le_add_left hm _).trans (hreads.left_le hs)

theorem Along.mono (h : Along m s σ u τ) (hk : k ≤ m) : Along k s σ u τ := by
  obtain ⟨ts, t, σ', hm, hrest⟩ := h
  exact ⟨ts, t, σ', hk.trans hm, hrest⟩

/-- Agendas that take the token at hand alike are followed alike. -/
theorem Along.of_feed_eq (ht : s.current = some t) (h : σ.feed t.kind = τ.feed t.kind) :
    Along 0 s σ s τ :=
  ⟨[], t, σ, Nat.zero_le _, .nil s, ht, rfl, h⟩

/-- What is read after following an agenda. -/
theorem Along.run_reads (h : Along m s σ u τ) {ts : List Token} (hreads : Reads ts u v)
    (ht : v.current = some t) {τ' : Agenda} (hrun : τ.run (ts.map Token.kind) = some τ') :
    ∃ ts' σ', m + ts.length ≤ ts'.length ∧ Reads ts' s v ∧
      σ.run (ts'.map Token.kind) = some σ' ∧ σ'.feed t.kind = τ'.feed t.kind := by
  obtain ⟨ts₁, t₁, σ₁, hm, hreads₁, ht₁, hrun₁, hfeed₁⟩ := h
  refine ⟨ts₁ ++ ts, ?_⟩
  rw [List.length_append, List.map_append, Agenda.run_append, hrun₁]
  cases hreads with
  | nil =>
    cases ht.symm.trans ht₁
    cases hrun
    exact ⟨σ₁, Nat.add_le_add_right hm _, by simpa using hreads₁, rfl, hfeed₁⟩
  | @cons t' ts _ _ _ _ current ended step rest =>
    -- the first token that is read is the one that both agendas take alike
    cases current.symm.trans ht₁
    have hsame := Agenda.run_congr hfeed₁ (ts.map Token.kind)
    exact ⟨τ', Nat.add_le_add_right hm _, hreads₁.append (.cons current ended step rest),
      hsame.trans hrun, rfl⟩

theorem Along.trans (h : Along m s σ u τ) (h' : Along k u τ v ρ) : Along (m + k) s σ v ρ := by
  obtain ⟨ts, t, τ', hk, hreads, ht, hrun, hfeed⟩ := h'
  obtain ⟨ts', σ', hlength, hreads', hrun', hfeed'⟩ := h.run_reads hreads ht hrun
  exact ⟨ts', t, σ', by omega, hreads', ht, hrun', hfeed'.trans hfeed⟩

/-- A parser that stops after following an agenda has stopped. -/
theorem Fails.after {stop : Stop SyntaxError} (h : Along m s σ u τ) (h' : Fails u τ stop v) :
    Fails s σ stop v := by
  cases h' with
  | unexpected reads current run feed =>
    obtain ⟨ts', σ', -, hreads', hrun', hfeed'⟩ := h.run_reads reads current run
    exact .unexpected hreads' current hrun' (hfeed'.trans feed)
  | token reads current ended run feed step =>
    obtain ⟨ts', σ', -, hreads', hrun', hfeed'⟩ := h.run_reads reads current run
    exact .token hreads' current ended hrun' (hfeed'.trans feed) step

/-- A parser goes on after following an agenda. -/
theorem Traced.after {α : Type} {r : EStateM.Result (Stop SyntaxError) TokenStream α}
    (h : Along m s σ u τ) (h' : Traced k u τ ρ r) : Traced (m + k) s σ ρ r :=
  Ends.mono h' (fun _ _ => h.trans) fun _ _ => Fails.after h

theorem Traced.mono {α : Type} {r : EStateM.Result (Stop SyntaxError) TokenStream α}
    (h : Traced m s σ τ r) (hk : k ≤ m) : Traced k s σ τ r :=
  Ends.mono h (fun _ _ h => h.mono hk) fun _ _ h => h

end Along

/-! ## Single steps -/

namespace Parser

variable {α β : Type} {m : Nat} {s u : TokenStream} {σ τ ρ : Agenda} {t : Token} {kind : Kind}

/-- A parser that goes on with what another one has given. -/
theorem traced_bind {j : Nat} {x : Parser α} {f : α → Parser β} (hs : s.Standard)
    (hx : Traced m s σ τ (x s))
    (hf : ∀ a u, u.Ready → u.left + m ≤ s.left → Traced 0 u τ ρ (f a u))
    (hj : j ≤ m := by decide) : Traced j s σ ρ ((x >>= f) s) :=
  Ends.bind hx fun a u hu =>
    (Traced.after hu (hf a u (hu.ready hs) (hu.left_le hs))).mono hj

theorem traced_discard {x : Parser α} (h : Traced m s σ τ (x s)) :
    Traced m s σ τ ((discard x : Parser PUnit) s) :=
  Ends.discard h

theorem traced_pure (hs : s.Ready) (a : α) : Traced 0 s σ σ ((pure a : Parser α) s) := by
  obtain ⟨t, ht⟩ := hs.exists_current
  exact .ok (.of_feed_eq ht rfl)

theorem currentKind_bind (ht : s.current = some t) (f : Kind → Parser α) :
    (currentKind >>= f) s = f t.kind s := by
  have hkind : currentKind s = .ok t.kind s := currentKind_eq_ok.mpr ⟨rfl, t, ht, rfl⟩
  change EStateM.bind currentKind f s = _
  rw [EStateM.bind, hkind]

theorem isAt_bind (ht : s.current = some t) (f : Bool → Parser α) :
    (isAt kind >>= f) s = f (decide (t.kind = kind)) s := by
  have hat : isAt kind s = .ok (decide (t.kind = kind)) s := isAt_eq_ok.mpr ⟨rfl, t, ht, rfl⟩
  change EStateM.bind (isAt kind) f s = _
  rw [EStateM.bind, hat]

/-- A parser that cannot use the token at hand stops at it. -/
theorem ends_unexpected {good : α → TokenStream → Prop} (ht : s.current = some t)
    (hfeed : σ.feed t.kind = none) (expected : String) :
    Ends good (Fails s σ) (unexpected expected s) := by
  have hhere : unexpectedHere expected s =
      .unexpected (if t.kind = .endOfText then "EOF" else t.text) expected t.span.start := by
    simp only [unexpectedHere, TokenStream.token, ht]
  show Ends good (Fails s σ) (EStateM.Result.error (Stop.error (unexpectedHere expected s)) s)
  rw [hhere]
  exact .error (.unexpected (.nil s) ht rfl hfeed)

theorem step_eq_error {stop : Stop SyntaxError} (h : step s = .error stop u) :
    ∃ cause, s.advance = .error cause u ∧ stop = cause.map .token := by
  unfold step at h
  split at h
  · cases h
  · next cause s' hadv =>
    cases h
    exact ⟨cause, hadv, rfl⟩

/-- A step over a token fails if there is none after it. -/
theorem advance_eq_error {stop : Stop SyntaxError} (ht : s.current = some t)
    (h : advance s = .error stop u) :
    s.ended = false ∧ ∃ cause, s.advance = .error cause u ∧ stop = cause.map .token := by
  unfold advance at h
  obtain hcurrent | ⟨t', s', hcurrent, hrest⟩ := step_bind_eq_error.mp h
  · cases hcurrent.symm.trans (current_eq_ok.mpr ⟨rfl, ht⟩)
  · obtain ⟨rfl, -⟩ := current_eq_ok.mp hcurrent
    obtain hget | ⟨s'', v, hget, hlast⟩ := step_bind_eq_error.mp hrest
    · cases hget
    · cases hget
      cases hended : s'.ended with
      | true =>
        simp only [TokenStream.hasNext, hended] at hlast
        cases hlast
      | false =>
        simp only [TokenStream.hasNext, hended] at hlast
        obtain hstep | ⟨_, v, -, hpure⟩ := step_bind_eq_error.mp hlast
        · exact ⟨rfl, step_eq_error (step_discard_eq_error.mp hstep)⟩
        · cases hpure

/-- The step over a token that may come next. -/
theorem ends_advance (hs : s.Standard) (ht : s.current = some t) (hend : t.kind ≠ .endOfText)
    (hfeed : σ.feed t.kind = some τ) :
    Ends (fun t' u => t' = t ∧ Along 1 s σ u τ) (Fails s σ) (advance s) := by
  cases hadv : advance s with
  | ok t' u =>
    obtain ⟨ht', ⟨hended, -⟩ | ⟨hended, k, hstep⟩⟩ := advance_eq_ok.mp hadv
    · exact absurd ((hs.ended_iff t ht).mp hended) hend
    · cases ht'.symm.trans ht
      obtain ⟨next, hnext, -⟩ := TokenStream.current_of_advance hstep
      have hreads : Reads [t] s u := .cons ht hended hstep (.nil u)
      exact .ok ⟨rfl, [t], next, τ, Nat.le_refl 1, hreads, hnext, Agenda.run_of_feed hfeed [], rfl⟩
  | error stop u =>
    obtain ⟨hended, cause, hstep, rfl⟩ := advance_eq_error ht hadv
    cases cause with
    | defect defect => exact absurd hstep (hs.advance_ne_defect defect)
    | error e => exact .error (.token (.nil s) ht hended rfl hfeed hstep)

theorem traced_advance (hs : s.Standard) (ht : s.current = some t) (hend : t.kind ≠ .endOfText)
    (hfeed : σ.feed t.kind = some τ) : Traced 1 s σ τ (advance s) :=
  (ends_advance hs ht hend hfeed).mono (fun _ _ h => h.2) fun _ _ h => h

/-- A parser that goes on after the token at hand. -/
theorem traced_advance_bind {f : Token → Parser α} (hs : s.Standard) (ht : s.current = some t)
    (hend : t.kind ≠ .endOfText) (hfeed : σ.feed t.kind = some τ)
    (hf : ∀ u, u.Ready → u.left + 1 ≤ s.left → Traced 0 u τ ρ (f t u)) :
    Traced 1 s σ ρ ((advance >>= f) s) := by
  refine Ends.bind (ends_advance hs ht hend hfeed) fun t' u hu => ?_
  obtain ⟨rfl, hu⟩ := hu
  exact Traced.after hu (hf u (hu.ready hs) (hu.left_le hs))

/-- The step over a token that is known to have the kind that is expected. -/
theorem traced_expect_of_kind (hs : s.Standard) (ht : s.current = some t) (hkind : t.kind = kind)
    (hend : kind ≠ .endOfText) (hfeed : σ.feed t.kind = some τ) :
    Traced 1 s σ τ (expect kind s) := by
  subst hkind
  rw [expect, currentKind_bind ht, if_pos rfl]
  exact traced_advance hs ht hend hfeed

/-- The step over a token that comes next by its kind. -/
theorem traced_expect (hs : s.Ready) (hend : kind ≠ .endOfText) :
    Traced 1 s (.token kind :: σ) σ (expect kind s) := by
  obtain ⟨t, ht⟩ := hs.exists_current
  by_cases hkind : t.kind = kind
  · have hfeed : Agenda.feed (.token kind :: σ) t.kind = some σ := by
      rw [hkind, Agenda.feed_token]
    exact traced_expect_of_kind hs.toStandard ht hkind hend hfeed
  · have hfeed : Agenda.feed (.token kind :: σ) t.kind = none := by
      rw [Agenda.feed, if_neg hkind]
    rw [expect, currentKind_bind ht, if_neg hkind]
    exact ends_unexpected ht hfeed _

/-- A parser that goes on after a token that comes next by its kind. -/
theorem traced_expect_bind {j : Nat} {f : PUnit → Parser α} (hs : s.Ready) (hend : kind ≠ .endOfText)
    (hf : ∀ u, u.Ready → u.left + 1 ≤ s.left → Traced 0 u σ ρ (f ⟨⟩ u)) (hj : j ≤ 1 := by decide) :
    Traced j s (.token kind :: σ) ρ ((discard (expect kind) >>= f) s) :=
  traced_bind hs.toStandard (traced_discard (traced_expect hs hend)) (fun _ u => hf u) hj

/-- A parser that goes on after a token that is known to have the kind that is expected. -/
theorem traced_expect_of_kind_bind {f : PUnit → Parser α} (hs : s.Standard) (ht : s.current = some t)
    (hkind : t.kind = kind) (hend : kind ≠ .endOfText) (hfeed : σ.feed t.kind = some τ)
    (hf : ∀ u, u.Ready → u.left + 1 ≤ s.left → Traced 0 u τ ρ (f ⟨⟩ u)) :
    Traced 1 s σ ρ ((discard (expect kind) >>= f) s) :=
  traced_bind hs (traced_discard (traced_expect_of_kind hs ht hkind hend hfeed)) fun _ u => hf u

theorem traced_ident_of_kind (hs : s.Standard) (ht : s.current = some t)
    (hkind : t.kind = .identifier) (hfeed : σ.feed t.kind = some τ) :
    Traced 1 s σ τ (ident s) :=
  traced_bind hs (traced_expect_of_kind hs ht hkind (by decide) hfeed)
    fun t u hu _ => traced_pure hu _

theorem traced_ident (hs : s.Ready) : Traced 1 s (.token .identifier :: σ) σ (ident s) :=
  traced_bind hs.toStandard (traced_expect hs (by decide)) fun t u hu _ => traced_pure hu _

end Parser

/-! ## The tokens of each form -/

/-- The kind of token that begins a statement of the form. -/
def StmtForm.opener : StmtForm → Kind
  | .declare => .varWord
  | .assign => .identifier
  | .print => .printWord
  | .forEach => .forWord

namespace Rules

variable {k : Kind} {tight : Power}

theorem eq_opener_of_form {form : StmtForm} (h : standard.form k = some form) :
    k = form.opener := by
  cases k <;> cases h <;> rfl

theorem eq_openParen_of_group (h : standard.opening k = some .group) : k = .openParen := by
  cases k <;> cases h
  rfl

theorem eq_openBracket_of_list (h : standard.opening k = some .list) : k = .openBracket := by
  cases k <;> cases h
  rfl

theorem eq_cons_of_cons (h : standard.continuation k = some (tight, .cons)) : k = .cons := by
  cases k <;> cases h
  rfl

theorem exists_unaryOp (h : standard.opening k = some .unary) : ∃ op, k.unaryOp? = some op := by
  cases k <;> cases h <;> exact ⟨_, rfl⟩

theorem exists_binaryOp (h : standard.continuation k = some (tight, .binary)) :
    ∃ op, k.binaryOp? = some op := by
  cases k <;> cases h <;> exact ⟨_, rfl⟩

/-- What begins an expression does not end the text. -/
theorem ne_endOfText_of_opening {form : Opening} (h : standard.opening k = some form) :
    k ≠ .endOfText := by
  rintro rfl
  cases h

/-- What goes on with an expression does not end the text. -/
theorem ne_endOfText_of_continuation {form : Continuation}
    (h : standard.continuation k = some (tight, form)) : k ≠ .endOfText := by
  rintro rfl
  cases h

end Rules

/-! ## Expressions -/

namespace Grammar
open ListScript.Parser

/-- With a bound of `n`, large enough for what is left, a parser of expressions follows the agenda. -/
structure ExprTraced (n : Nat) : Prop where
  expr {p : Power} {σ : Agenda} {s : TokenStream} : s.Ready → 3 * s.left + 1 < n →
    Traced 1 s (.expr p :: σ) σ (expr .standard n p s)
  proceed {p : Power} {σ : Agenda} {s : TokenStream} {e : Expr} : s.Ready → 3 * s.left + 1 < n →
    Traced 0 s (.operators p :: σ) σ (proceed .standard n p e s)
  opening {p : Power} {σ : Agenda} {s : TokenStream} {t : Token} {form : Opening} : s.Standard →
    s.current = some t → Rules.standard.opening t.kind = some form → 3 * s.left < n →
    Traced 1 s (.expr p :: σ) (.operators p :: σ) (opening .standard n form s)
  continuation {p tight : Power} {σ : Agenda} {s : TokenStream} {t : Token} {form : Continuation}
    {e : Expr} : s.Standard → s.current = some t →
    Rules.standard.continuation t.kind = some (tight, form) → p < tight → 3 * s.left < n →
    Traced 1 s (.operators p :: σ) (.operators p :: σ) (continuation .standard n form e tight s)
  exprs {σ : Agenda} {s : TokenStream} : s.Ready → 3 * s.left + 2 < n →
    Traced 1 s (.expr .lowest :: .items :: σ) σ (exprs .standard n s)

variable {n : Nat} {p tight : Power} {σ : Agenda} {s : TokenStream} {t : Token}

theorem exprTraced_zero : ExprTraced 0 where
  expr _ h := absurd h (Nat.not_lt_zero _)
  proceed _ h := absurd h (Nat.not_lt_zero _)
  opening _ _ _ h := absurd h (Nat.not_lt_zero _)
  continuation _ _ _ _ h := absurd h (Nat.not_lt_zero _)
  exprs _ h := absurd h (Nat.not_lt_zero _)

theorem ExprTraced.expr_succ (h : ExprTraced n) (hs : s.Ready) (hn : 3 * s.left + 1 < n + 1) :
    Traced 1 s (.expr p :: σ) σ (Grammar.expr .standard (n + 1) p s) := by
  obtain ⟨t, ht⟩ := hs.exists_current
  rw [Grammar.expr, currentKind_bind ht]
  cases hform : Rules.standard.opening t.kind with
  | none =>
    have hfeed : Agenda.feed (.expr p :: σ) t.kind = none := by
      rw [Agenda.feed, hform]
      rfl
    exact ends_unexpected ht hfeed _
  | some form =>
    exact traced_bind hs.toStandard (h.opening hs.toStandard ht hform (by omega)) fun e u hu hle =>
      h.proceed hu (by omega)

theorem ExprTraced.proceed_succ (h : ExprTraced n) {e : Expr} (hs : s.Ready)
    (hn : 3 * s.left + 1 < n + 1) :
    Traced 0 s (.operators p :: σ) σ (Grammar.proceed .standard (n + 1) p e s) := by
  obtain ⟨t, ht⟩ := hs.exists_current
  rw [Grammar.proceed, currentKind_bind ht]
  have hstop : ¬ p < Rules.standard.power t.kind →
      Traced 0 s (.operators p :: σ) σ ((pure e : Parser Expr) s) := fun hlt =>
    .ok (.of_feed_eq ht (Agenda.feed_operators_of_not_lt hlt))
  unfold Rules.power at hstop
  rcases hcont : Rules.standard.continuation t.kind with _ | ⟨tight, form⟩
  · rw [hcont] at hstop
    exact hstop (Nat.not_lt_zero _)
  · rw [hcont] at hstop
    by_cases hlt : p < tight
    · simp only [if_pos hlt]
      exact traced_bind hs.toStandard (h.continuation hs.toStandard ht hcont hlt (by omega))
        fun e u hu hle => h.proceed hu (by omega)
    · simp only [if_neg hlt]
      exact hstop hlt

theorem traced_atom (hs : s.Standard) (ht : s.current = some t)
    (hform : Rules.standard.opening t.kind = some .atom) :
    Traced 1 s (.expr p :: σ) (.operators p :: σ) (atom s) := by
  have hend := Rules.ne_endOfText_of_opening hform
  have hfeed : Agenda.feed (.expr p :: σ) t.kind = some (.operators p :: σ) :=
    Agenda.feed_expr hform
  have hcontent := hs.content t ht
  rw [atom, currentKind_bind ht]
  cases hk : t.kind
  case numeral =>
    obtain ⟨value, hvalue⟩ := hcontent.int hk
    refine traced_advance_bind hs ht hend hfeed fun u hu _ => ?_
    rw [Token.int_eq_ok.mpr hvalue]
    exact traced_pure hu _
  case boolean =>
    obtain ⟨value, hvalue⟩ := hcontent.bool hk
    refine traced_advance_bind hs ht hend hfeed fun u hu _ => ?_
    rw [Token.bool_eq_ok.mpr hvalue]
    exact traced_pure hu _
  case identifier =>
    exact traced_advance_bind hs ht hend hfeed fun u hu _ => traced_pure hu _
  all_goals
    rw [hk] at hform
    cases hform

theorem ExprTraced.opening_succ (h : ExprTraced n) {form : Opening} (hs : s.Standard)
    (ht : s.current = some t) (hform : Rules.standard.opening t.kind = some form)
    (hn : 3 * s.left < n + 1) :
    Traced 1 s (.expr p :: σ) (.operators p :: σ)
      (Grammar.opening .standard (n + 1) form s) := by
  have hend := Rules.ne_endOfText_of_opening hform
  have hfeed := Agenda.feed_expr (p := p) (σ := σ) hform
  cases form with
  | atom =>
    rw [Grammar.opening]
    exact traced_atom hs ht hform
  | unary =>
    obtain ⟨op, hop⟩ := Rules.exists_unaryOp hform
    rw [Grammar.opening]
    refine traced_advance_bind hs ht hend hfeed fun u hu hle => ?_
    refine traced_bind hu.toStandard (h.expr hu (by omega)) fun operand v hv _ => ?_
    rw [hop]
    exact traced_pure hv _
  | group =>
    have hk : t.kind = .openParen := Rules.eq_openParen_of_group hform
    rw [Grammar.opening]
    refine traced_expect_of_kind_bind hs ht hk (by decide) hfeed fun u hu hle => ?_
    refine traced_bind hu.toStandard (h.expr hu (by omega)) fun inner v hv _ => ?_
    exact traced_expect_bind hv (by decide) fun w hw _ => traced_pure hw _
  | list =>
    have hk : t.kind = .openBracket := Rules.eq_openBracket_of_list hform
    rw [Grammar.opening]
    refine traced_expect_of_kind_bind hs ht hk (by decide) hfeed fun u hu hle => ?_
    refine traced_bind hu.toStandard (h.exprs hu (by omega)) fun items v hv _ => ?_
    exact traced_expect_bind hv (by decide) fun w hw _ => traced_pure hw _

theorem ExprTraced.continuation_succ (h : ExprTraced n) {form : Continuation} {e : Expr}
    (hs : s.Standard) (ht : s.current = some t)
    (hcont : Rules.standard.continuation t.kind = some (tight, form)) (hlt : p < tight)
    (hn : 3 * s.left < n + 1) : Traced 1 s (.operators p :: σ) (.operators p :: σ)
      (Grammar.continuation .standard (n + 1) form e tight s) := by
  have hend := Rules.ne_endOfText_of_continuation hcont
  have hfeed := Agenda.feed_operators (σ := σ) hcont hlt
  cases form with
  | binary =>
    obtain ⟨op, hop⟩ := Rules.exists_binaryOp hcont
    rw [Grammar.continuation]
    refine traced_advance_bind hs ht hend hfeed fun u hu hle => ?_
    refine traced_bind hu.toStandard (h.expr hu (by omega)) fun right v hv _ => ?_
    rw [hop]
    exact traced_pure hv _
  | cons =>
    have hk : t.kind = .cons := Rules.eq_cons_of_cons hcont
    rw [Grammar.continuation]
    refine traced_expect_of_kind_bind hs ht hk (by decide) hfeed fun u hu hle => ?_
    exact traced_bind hu.toStandard (h.expr hu (by omega)) fun right v hv _ => traced_pure hv _

theorem ExprTraced.exprs_succ (h : ExprTraced n) (hs : s.Ready) (hn : 3 * s.left + 2 < n + 1) :
    Traced 1 s (.expr .lowest :: .items :: σ) σ (Grammar.exprs .standard (n + 1) s) := by
  rw [Grammar.exprs]
  refine traced_bind hs.toStandard (h.expr hs (by omega)) fun item u hu hle => ?_
  obtain ⟨t, ht⟩ := hu.exists_current
  rw [isAt_bind ht]
  by_cases hk : t.kind = .comma
  · have hfeed : Agenda.feed (.items :: σ) t.kind = some (.expr .lowest :: .items :: σ) := by
      rw [Agenda.feed, if_pos hk]
    rw [if_pos (by simpa using hk)]
    have hadv : Traced 1 u (.items :: σ) (.expr .lowest :: .items :: σ) (advance u) :=
      traced_advance hu.toStandard ht (by rw [hk]; decide) hfeed
    exact traced_bind hu.toStandard (traced_discard hadv) fun _ v hv hle' =>
      traced_bind hv.toStandard (h.exprs hv (by omega)) fun rest w hw _ => traced_pure hw _
  · rw [if_neg (by simpa using hk)]
    exact .ok (.of_feed_eq ht (Agenda.feed_items_of_ne hk))

/-- A parser of expressions follows the agenda, with every bound that is large enough. -/
theorem exprTraced (n : Nat) : ExprTraced n := by
  induction n with
  | zero => exact exprTraced_zero
  | succ n ih =>
    exact ⟨ih.expr_succ, ih.proceed_succ, ih.opening_succ, ih.continuation_succ, ih.exprs_succ⟩

/-! ## Statements -/

/-- With a bound of `n`, large enough for what is left, a parser of statements follows the agenda. -/
structure StmtTraced (n : Nat) : Prop where
  stmt {σ : Agenda} {s : TokenStream} : s.Ready → 3 * s.left + 1 < n →
    Traced 1 s (.stmt :: σ) σ (stmt .standard n s)
  stmtOf {σ : Agenda} {s : TokenStream} {t : Token} {form : StmtForm} : s.Standard →
    s.current = some t → Rules.standard.form t.kind = some form → 3 * s.left < n →
    Traced 1 s (.stmt :: σ) σ (stmtOf .standard n form s)
  block {σ : Agenda} {s : TokenStream} : s.Ready → 3 * s.left + 2 < n →
    Traced 1 s (.stmt :: .stmts :: σ) σ (block .standard n s)

theorem stmtTraced_zero : StmtTraced 0 where
  stmt _ h := absurd h (Nat.not_lt_zero _)
  stmtOf _ _ _ h := absurd h (Nat.not_lt_zero _)
  block _ h := absurd h (Nat.not_lt_zero _)

theorem StmtTraced.stmt_succ (h : StmtTraced n) (hs : s.Ready) (hn : 3 * s.left + 1 < n + 1) :
    Traced 1 s (.stmt :: σ) σ (Grammar.stmt .standard (n + 1) s) := by
  obtain ⟨t, ht⟩ := hs.exists_current
  rw [Grammar.stmt, currentKind_bind ht]
  cases hform : Rules.standard.form t.kind with
  | none =>
    have hfeed : Agenda.feed (.stmt :: σ) t.kind = none := by
      rw [Agenda.feed, hform]
      rfl
    exact ends_unexpected ht hfeed _
  | some form => exact h.stmtOf hs.toStandard ht hform (by omega)

theorem StmtTraced.stmtOf_succ (h : StmtTraced n) {form : StmtForm} (hs : s.Standard)
    (ht : s.current = some t) (hform : Rules.standard.form t.kind = some form)
    (hn : 3 * s.left < n + 1) :
    Traced 1 s (.stmt :: σ) σ (Grammar.stmtOf .standard (n + 1) form s) := by
  have hexpr := exprTraced n
  have hfeed := Agenda.feed_stmt (σ := σ) hform
  cases form with
  | declare =>
    have hk : t.kind = .varWord := Rules.eq_opener_of_form hform
    rw [Grammar.stmtOf]
    refine traced_expect_of_kind_bind hs ht hk (by decide) hfeed fun u hu hle => ?_
    refine traced_bind hu.toStandard (traced_ident hu) fun x v hv hle' => ?_
    refine traced_expect_bind hv (by decide) fun w hw hle'' => ?_
    exact traced_bind hw.toStandard (hexpr.expr hw (by omega)) fun e _ hend _ => traced_pure hend _
  | assign =>
    have hk : t.kind = .identifier := Rules.eq_opener_of_form hform
    rw [Grammar.stmtOf]
    refine traced_bind hs (traced_ident_of_kind hs ht hk hfeed) fun x u hu hle => ?_
    refine traced_expect_bind hu (by decide) fun v hv hle' => ?_
    exact traced_bind hv.toStandard (hexpr.expr hv (by omega)) fun e _ hend _ => traced_pure hend _
  | print =>
    have hk : t.kind = .printWord := Rules.eq_opener_of_form hform
    rw [Grammar.stmtOf]
    refine traced_expect_of_kind_bind hs ht hk (by decide) hfeed fun u hu hle => ?_
    exact traced_bind hu.toStandard (hexpr.expr hu (by omega)) fun e _ hend _ => traced_pure hend _
  | forEach =>
    have hk : t.kind = .forWord := Rules.eq_opener_of_form hform
    rw [Grammar.stmtOf]
    refine traced_expect_of_kind_bind hs ht hk (by decide) hfeed fun s₁ h₁ hle₁ => ?_
    refine traced_bind h₁.toStandard (traced_ident h₁) fun x s₂ h₂ hle₂ => ?_
    refine traced_expect_bind h₂ (by decide) fun s₃ h₃ hle₃ => ?_
    refine traced_bind h₃.toStandard (hexpr.expr h₃ (by omega)) fun items s₄ h₄ hle₄ => ?_
    refine traced_expect_bind h₄ (by decide) fun s₅ h₅ hle₅ => ?_
    refine traced_bind h₅.toStandard (h.block h₅ (by omega)) fun body s₆ h₆ _ => ?_
    exact traced_expect_bind h₆ (by decide) fun _ hend _ => traced_pure hend _

theorem StmtTraced.block_succ (h : StmtTraced n) (hs : s.Ready) (hn : 3 * s.left + 2 < n + 1) :
    Traced 1 s (.stmt :: .stmts :: σ) σ (Grammar.block .standard (n + 1) s) := by
  rw [Grammar.block]
  refine traced_bind hs.toStandard (h.stmt hs (by omega)) fun first u hu hle => ?_
  obtain ⟨t, ht⟩ := hu.exists_current
  rw [isAt_bind ht]
  by_cases hk : t.kind = .semicolon
  · have hfeed : Agenda.feed (.stmts :: σ) t.kind = some (.nextStmt :: σ) := by
      rw [Agenda.feed, if_pos hk]
    have hadv : Traced 1 u (.stmts :: σ) (.nextStmt :: σ) (advance u) :=
      traced_advance hu.toStandard ht (by rw [hk]; decide) hfeed
    rw [if_pos (by simpa using hk)]
    refine traced_bind hu.toStandard (traced_discard hadv) fun _ v hv hle' => ?_
    obtain ⟨t', ht'⟩ := hv.exists_current
    rw [isAt_bind ht', isAt_bind ht']
    by_cases hlast : t'.kind = .endOfText ∨ t'.kind = .closeBrace
    · rw [if_pos (by simpa using hlast)]
      exact .ok (.of_feed_eq ht' (Agenda.feed_nextStmt_of_end hlast))
    · rw [if_neg (by simpa using hlast)]
      have hnext : Along 0 v (.nextStmt :: σ) v (.stmt :: .stmts :: σ) :=
        .of_feed_eq ht' (Agenda.feed_nextStmt hlast)
      refine (Traced.after (k := 0) hnext ?_).mono (Nat.zero_le _)
      exact traced_bind hv.toStandard (h.block hv (by omega)) fun rest w hw _ => traced_pure hw _
  · rw [if_neg (by simpa using hk)]
    exact .ok (.of_feed_eq ht (Agenda.feed_stmts_of_ne hk))

/-- A parser of statements follows the agenda, with every bound that is large enough. -/
theorem stmtTraced (n : Nat) : StmtTraced n := by
  induction n with
  | zero => exact stmtTraced_zero
  | succ n ih => exact ⟨ih.stmt_succ, ih.stmtOf_succ, ih.block_succ⟩

end Grammar

/-! ## Programs -/

namespace Parser

variable {s : TokenStream}

/-- The bound for a stream is large enough for what is left. -/
theorem left_lt_budget (s : TokenStream) : 3 * s.left + 2 < budget s := by
  unfold TokenStream.left budget
  split <;> omega

/-- A program up to the end of the text, from the first token on. -/
def body : Parser Block := do
  let block ← withBudget (Grammar.block .standard)
  discard (expect .endOfText)
  pure block

theorem program_eq_body : program .standard = start >>= fun _ => body := rfl

theorem expect_endOfText {t : Token} (hs : s.Standard) (ht : s.current = some t)
    (hend : t.kind = .endOfText) : expect .endOfText s = .ok t s :=
  expect_eq_ok.mpr ⟨hend, advance_eq_ok.mpr ⟨ht, .inl ⟨(hs.ended_iff t ht).mpr hend, rfl⟩⟩⟩

/-- A parser of programs follows the agenda of a program up to the end of the text. -/
theorem ends_body (hs : s.Ready) :
    Ends (fun _ s' => ∃ ts t, Reads ts s s' ∧ s'.current = some t ∧ t.kind = .endOfText ∧
        Agenda.program.run (ts.map Token.kind ++ [.endOfText]) = some [])
      (Fails s .program) (body s) := by
  have hblock : Traced 1 s .program [] (Grammar.block .standard (budget s) s) :=
    (Grammar.stmtTraced _).block hs (left_lt_budget s)
  refine Ends.bind hblock fun block u hu => ?_
  have hready := hu.ready hs.toStandard
  obtain ⟨t, ht⟩ := hready.exists_current
  by_cases hend : t.kind = .endOfText
  · have hexpect : (discard (expect .endOfText) : Parser PUnit) u = .ok ⟨⟩ u :=
      step_discard_eq_ok.mpr ⟨t, expect_endOfText hready.toStandard ht hend⟩
    have hlast : (discard (expect .endOfText) >>= fun _ => (pure block : Parser Block)) u =
        .ok block u := step_bind_eq_ok.mpr ⟨⟨⟩, u, hexpect, rfl⟩
    rw [hlast]
    obtain ⟨ts, t', σ, -, hreads, ht', hrun, hfeed⟩ := hu
    cases ht.symm.trans ht'
    refine .ok ⟨ts, t, hreads, ht, hend, ?_⟩
    rw [hend] at hfeed
    rw [Agenda.run_concat, hrun]
    exact hfeed
  · have hfeed : Agenda.feed [] t.kind = none := by
      rw [Agenda.feed, if_neg hend]
    have hexpect : Ends (fun _ _ => False) (Fails u []) (expect .endOfText u) := by
      rw [expect, currentKind_bind ht, if_neg hend]
      exact ends_unexpected ht hfeed _
    exact Ends.bind (hexpect.discard.mono (fun _ _ h => h) fun _ _ => Fails.after hu)
      fun _ _ h => h.elim

end Parser

/-! ## Where a parser begins -/

/-- A parser begins with the token at hand, or with the next one if there is none. -/
def Parser.Begins (s u : TokenStream) : Prop :=
  (∃ t, s.current = some t) ∧ u = s ∨ s.current = none ∧ ∃ k, s.advance = .ok k u

/-- A parser reads a program from where it begins. -/
theorem parse_of_begins {s u : TokenStream} (h : Parser.Begins s u) : parse s = Parser.body u := by
  have hstart : Parser.start s = .ok () u := Parser.start_eq_ok.mpr h
  rw [parse, Parser.program_eq_body]
  change EStateM.bind Parser.start (fun _ => Parser.body) s = _
  rw [EStateM.bind, hstart]

/-- A parser without a first token reports why there is none. -/
theorem parse_of_error {s s' : TokenStream} {cause : Stop TokenError} (hnone : s.current = none)
    (hadv : s.advance = .error cause s') : parse s = .error (cause.map .token) s' := by
  have hstep : Parser.step s = .error (cause.map .token) s' := by
    rw [Parser.step, hadv]
  rw [parse, Parser.program_eq_body]
  refine step_bind_eq_error.mpr (.inl ?_)
  unfold Parser.start
  refine step_bind_eq_error.mpr (.inr ⟨_, _, rfl, ?_⟩)
  rw [hnone]
  exact step_discard_eq_error.mpr hstep

end ListScript
