import ListScript.Proofs.ParserSteps
import ListScript.Proofs.Unambiguity

/-!
# The parser finds every derivation

Where the tokens of a derivation come next, the parser gives the tree of the derivation, and three
levels of nesting for each of its tokens are enough.

* `Follows l s` : the token at hand may come after a phrase of level `l`; then no operator goes on with
  the phrase (`Follows.proceed`);
* `Grammar.expr_of_phrase`, `Grammar.exprs_of_items` : whatever the parser makes of the tree of a
  phrase and of what comes after it, it makes of the tokens of the phrase;
* `Grammar.stmt_of_phrase`, `Grammar.block_of_phrase` : statements and blocks;
* `Parser.program_of_phrase` : programs.
-/

namespace ListScript

/-- How tightly an operator may bind that comes after a phrase: as tightly as the operators of the
level, which group to the left. After a whole expression comes no operator. -/
def Level.bound : Level → Nat
  | .whole => 0
  | .conjunction => 2
  | .comparison => 3
  | .sum => 4
  | .product => 5
  | .operand => 6

theorem Level.bound_le_tighter (l : Level) : l.bound ≤ l.tighter.bound := by
  cases l <;> decide

/-- How an operator of a level goes on with an expression. -/
theorem Level.continuation {l : Level} {kind : Kind} {op : BinaryOp}
    (h : l.operator? = some (kind, op)) : ∃ tight : Power,
      Rules.standard.continuation kind = some (tight, .binary) ∧ kind.binaryOp? = some op ∧
        tight.rank = l.rank ∧ l.bound = l.rank := by
  cases l <;> cases h <;> exact ⟨_, rfl, rfl, rfl, rfl⟩

/-- The token at hand is one that may come after a phrase of the level. -/
def Follows (l : Level) (s : TokenStream) : Prop :=
  ∃ t, s.current = some t ∧ (Rules.standard.power t.kind).rank ≤ l.bound

theorem Follows.tighter {l : Level} {s : TokenStream} (h : Follows l s) : Follows l.tighter s := by
  obtain ⟨t, ht, hle⟩ := h
  exact ⟨t, ht, Nat.le_trans hle l.bound_le_tighter⟩

theorem Follows.of_power {l : Level} {s : TokenStream} {t : Token} (ht : s.current = some t)
    (h : Rules.standard.power t.kind = .lowest) : Follows l s :=
  ⟨t, ht, by rw [h]; exact Nat.zero_le _⟩

/-- A phrase ends where it is followed. -/
theorem Follows.proceed {l : Level} {s : TokenStream} (h : Follows l s) (left : Expr) (p : Power)
    (hle : l.bound ≤ p.rank) : ∀ n ≥ 1, Grammar.proceed .standard n p left s = .ok left s := by
  obtain ⟨t, ht, hpower⟩ := h
  rintro (_ | n) hn
  · omega
  · exact Grammar.proceed_eq_ok.mpr
      ⟨t, ht, .inr ⟨Nat.not_lt.mpr (Nat.le_trans hpower hle), rfl, rfl⟩⟩

namespace Grammar
open ListScript.Parser

variable {rules : Rules} {p : Power} {s s' s'' : TokenStream} {e left : Expr} {n m : Nat}

/-- An expression is what the parser makes of its beginning and of what comes after it. -/
theorem expr_of_opening {k : Nat} {t : Token} {form : Opening} (ht : s.current = some t)
    (hform : rules.opening t.kind = some form)
    (hopening : ∀ n ≥ k, opening rules n form s = .ok left s')
    (hrest : ∀ n ≥ m, proceed rules n p left s' = .ok e s'') :
    ∀ n ≥ m + k + 1, expr rules n p s = .ok e s''
  | n + 1, hn =>
    expr_eq_ok.mpr ⟨t, form, left, s', ht, hform, hopening n (by omega), hrest n (by omega)⟩

/-- A literal or a name is read at once. -/
theorem opening_of_atom {t : Token} (hreads : Reads [t] s s')
    (h : t.kind = .numeral ∧ (∃ value, t.literal = some (.int value) ∧ e = .int value) ∨
      t.kind = .boolean ∧ (∃ value, t.literal = some (.bool value) ∧ e = .bool value) ∨
      t.kind = .identifier ∧ e = .var ⟨t.text, t.span.start⟩) :
    ∀ n ≥ 1, opening rules n .atom s = .ok e s'
  | _ + 1, _ => atom_eq_ok.mpr ⟨t, advance_of_reads hreads, h⟩

/-- An operator that binds tightly enough is read with its right operand, which ends before the next
operator that binds no more tightly than this one. -/
theorem proceed_of_binary {k : Nat} {t : Token} {tight : Power} {op : BinaryOp} {right : Expr}
    {s₁ : TokenStream} (hop : Reads [t] s s₁)
    (hcont : rules.continuation t.kind = some (tight, .binary)) (hbin : t.kind.binaryOp? = some op)
    (hlt : p < tight) (hright : ∀ n ≥ k, expr rules n tight s₁ = .ok right s')
    (hrest : ∀ n ≥ m, proceed rules n p (.binary op left right) s' = .ok e s'') :
    ∀ n ≥ m + k + 2, proceed rules n p left s = .ok e s''
  | n + 2, hn => by
    refine proceed_eq_ok.mpr ⟨t, hop.current, .inl
      ⟨tight, .binary, .binary op left right, s', hcont, hlt, ?_, hrest (n + 1) (by omega)⟩⟩
    exact continuation_binary_eq_ok.mpr
      ⟨t, s₁, right, op, advance_of_reads hop, hright n (by omega), hbin, rfl⟩

/-- An operator before an operand is read, and then the operand. -/
theorem expr_of_unary {k : Nat} {t : Token} {op : UnaryOp} {operand : Expr} {s₁ : TokenStream}
    (ht : Reads [t] s s₁) (hop : t.kind.unaryOp? = some op)
    (hoperand : ∀ n ≥ k, expr .standard n .unary s₁ = .ok operand s')
    (hrest : ∀ n ≥ m, proceed .standard n p (.unary op operand) s' = .ok e s'') :
    ∀ n ≥ m + (k + 1) + 1, expr .standard n p s = .ok e s'' := by
  have hform : Rules.standard.opening t.kind = some .unary := by
    cases hkind : t.kind <;> rw [hkind] at hop <;> cases hop <;> rfl
  refine expr_of_opening ht.current hform (fun n hn => ?_) hrest
  obtain ⟨n, rfl⟩ : ∃ i, n = i + 1 := ⟨n - 1, by omega⟩
  exact opening_unary_eq_ok.mpr
    ⟨t, s₁, operand, op, advance_of_reads ht, hoperand n (by omega), hop, rfl⟩

mutual

/-- What the parser makes of the tree of a phrase and of what comes after it, it makes of the tokens
of the phrase. -/
theorem expr_of_phrase : ∀ {l : Level} (d : Phrase l) {p : Power} {s s' s'' : TokenStream} {e : Expr}
    {m : Nat}, p.rank < l.rank → Reads d.tokens s s' → Follows l s' →
    (∀ n ≥ m, proceed .standard n p d.tree s' = .ok e s'') →
    ∀ n ≥ m + 3 * d.tokens.length, expr .standard n p s = .ok e s''
  | _, .tighter h d, p, s, s', s'', e, m, hp, hreads, hfollows, hrest =>
    expr_of_phrase d (Nat.lt_trans hp (Level.rank_lt_tighter h)) hreads hfollows.tighter hrest
  | l, @Phrase.binary _ kind op h left t right, p, s, s', s'', e, m, hp, hreads, hfollows, hrest => by
    obtain ⟨s₁, hleft, hafter⟩ := hreads.of_append
    obtain ⟨s₂, hop, hright⟩ := hafter.of_cons
    obtain ⟨tight, hcont, hbin, htight, hbound⟩ := Level.continuation h
    have hpower : (Rules.standard.power t.1.kind).rank = l.bound := by
      rw [t.2, Level.rank_power h, hbound]
    have hloose : Follows l s₁ := ⟨t.1, hop.current, Nat.le_of_eq hpower⟩
    have hstop := hfollows.proceed right.tree tight (Nat.le_of_eq (hbound.trans htight.symm))
    have hexpr := expr_of_phrase right
      (by rw [htight]; exact Level.rank_lt_tighter (Level.ne_operand_of_operator? h)) hright
      hfollows.tighter hstop
    have hlt : p < tight := by
      show p.rank < tight.rank
      rwa [htight]
    have hproceed : ∀ n ≥ m + (1 + 3 * right.tokens.length) + 2,
        proceed .standard n p left.tree s₁ = .ok e s'' :=
      proceed_of_binary hop (by rw [t.2]; exact hcont) (by rw [t.2]; exact hbin) hlt hexpr hrest
    intro n hn
    refine expr_of_phrase left hp hleft hloose hproceed n ?_
    simp only [Phrase.tokens, List.length_append, List.length_cons] at hn
    omega
  | _, .cons left t right, p, s, s', s'', e, m, hp, hreads, hfollows, hrest => by
    obtain ⟨s₁, hleft, hafter⟩ := hreads.of_append
    obtain ⟨s₂, hop, hright⟩ := hafter.of_cons
    have hloose : Follows .conjunction s₁ := ⟨t.1, hop.current, by rw [t.2]; decide⟩
    have hexpr := expr_of_phrase right (p := .lowest) Nat.zero_lt_one hright hfollows
      (hfollows.proceed right.tree .lowest (Nat.le_refl _))
    have hproceed : ∀ n ≥ m + 3 * (right.tokens.length + 1),
        proceed .standard n p left.tree s₁ = .ok e s'' := by
      rintro (_ | _ | n) hn
      · omega
      · omega
      · refine proceed_eq_ok.mpr ⟨t.1, hop.current, .inl
          ⟨.cons, .cons, .binary .cons left.tree right.tree, s', by rw [t.2]; rfl, hp, ?_,
            hrest (n + 1) (by omega)⟩⟩
        exact continuation_cons_eq_ok.mpr
          ⟨t.1, s₂, right.tree, expect_of_reads hop, hexpr n (by omega), rfl⟩
    intro n hn
    refine expr_of_phrase left (Nat.lt_succ_of_lt hp) hleft hloose hproceed n ?_
    simp only [Phrase.tokens, List.length_append, List.length_cons] at hn
    omega
  | _, .negate t d, p, s, s', s'', e, m, hp, hreads, hfollows, hrest => by
    obtain ⟨s₁, hop, hoperand⟩ := hreads.of_cons
    have hexpr := expr_of_phrase d (p := .unary) (by decide) hoperand hfollows
      (hfollows.proceed d.tree .unary (Nat.le_refl _))
    intro n hn
    refine expr_of_unary hop (by rw [t.2]; rfl) hexpr hrest n ?_
    simp only [Phrase.tokens, List.length_cons] at hn
    omega
  | _, .not t d, p, s, s', s'', e, m, hp, hreads, hfollows, hrest => by
    obtain ⟨s₁, hop, hoperand⟩ := hreads.of_cons
    have hexpr := expr_of_phrase d (p := .unary) (by decide) hoperand hfollows
      (hfollows.proceed d.tree .unary (Nat.le_refl _))
    intro n hn
    refine expr_of_unary hop (by rw [t.2]; rfl) hexpr hrest n ?_
    simp only [Phrase.tokens, List.length_cons] at hn
    omega
  | _, .number t value h, p, s, s', s'', e, m, hp, hreads, hfollows, hrest => fun n hn =>
    expr_of_opening hreads.current (by rw [t.2]; rfl)
      (opening_of_atom hreads (.inl ⟨t.2, value, h, rfl⟩)) hrest n (by exact Nat.le_of_succ_le hn)
  | _, .truth t value h, p, s, s', s'', e, m, hp, hreads, hfollows, hrest => fun n hn =>
    expr_of_opening hreads.current (by rw [t.2]; rfl)
      (opening_of_atom hreads (.inr (.inl ⟨t.2, value, h, rfl⟩))) hrest n
      (by exact Nat.le_of_succ_le hn)
  | _, .name t, p, s, s', s'', e, m, hp, hreads, hfollows, hrest => fun n hn =>
    expr_of_opening hreads.current (by rw [t.2]; rfl)
      (opening_of_atom hreads (.inr (.inr ⟨t.2, rfl⟩))) hrest n (by exact Nat.le_of_succ_le hn)
  | _, .group t d c, p, s, s', s'', e, m, hp, hreads, hfollows, hrest => by
    obtain ⟨s₁, hop, hinside⟩ := hreads.of_cons
    obtain ⟨s₂, hinner, hclose⟩ := hinside.of_append
    have hend : Follows .whole s₂ := .of_power hclose.current (by rw [c.2]; rfl)
    have hexpr := expr_of_phrase d (p := .lowest) Nat.zero_lt_one hinner hend
      (hend.proceed d.tree .lowest (Nat.le_refl _))
    have hopening : ∀ n ≥ 1 + 3 * d.tokens.length + 1,
        opening .standard n .group s = .ok d.tree s' := by
      rintro (_ | n) hn
      · omega
      · exact opening_group_eq_ok.mpr
          ⟨t.1, s₁, s₂, c.1, expect_of_reads hop, hexpr n (by omega), expect_of_reads hclose⟩
    intro n hn
    refine expr_of_opening hop.current (by rw [t.2]; rfl) hopening hrest n ?_
    simp only [Phrase.tokens, List.length_cons, List.length_append, List.length_nil] at hn
    omega
  | _, .list t items c, p, s, s', s'', e, m, hp, hreads, hfollows, hrest => by
    obtain ⟨s₁, hop, hinside⟩ := hreads.of_cons
    obtain ⟨s₂, hinner, hclose⟩ := hinside.of_append
    have hitems := exprs_of_items items hinner hclose.current
    have hopening : ∀ n ≥ 3 * items.tokens.length + 2 + 1,
        opening .standard n .list s = .ok (.list items.tree) s' := by
      rintro (_ | n) hn
      · omega
      · exact opening_list_eq_ok.mpr ⟨t.1, s₁, items.tree, s₂, c.1, expect_of_reads hop,
          hitems n (by omega), expect_of_reads hclose, rfl⟩
    intro n hn
    refine expr_of_opening hop.current (by rw [t.2]; rfl) hopening hrest n ?_
    simp only [Phrase.tokens, List.length_cons, List.length_append, List.length_nil] at hn
    omega

/-- Expressions between commas. -/
theorem exprs_of_items : ∀ (d : Items) {s s' : TokenStream} {c : Terminal .closeBracket},
    Reads d.tokens s s' → s'.current = some c.1 →
    ∀ n ≥ 3 * d.tokens.length + 2, exprs .standard n s = .ok d.tree s'
  | .one d, s, s', c, hreads, hc => by
    have hend : Follows .whole s' := .of_power hc (by rw [c.2]; rfl)
    have hexpr := expr_of_phrase d (p := .lowest) Nat.zero_lt_one hreads hend
      (hend.proceed d.tree .lowest (Nat.le_refl _))
    rintro (_ | n) hn
    · omega
    · simp only [Items.tokens] at hn
      exact exprs_eq_ok.mpr ⟨d.tree, s', c.1, hexpr n (by omega), hc,
        .inr ⟨by rw [c.2]; decide, rfl, rfl⟩⟩
  | .more d comma rest, s, s', c, hreads, hc => by
    obtain ⟨s₁, hitem, hafter⟩ := hreads.of_append
    obtain ⟨s₂, hcomma, htail⟩ := hafter.of_cons
    have hend : Follows .whole s₁ := .of_power hcomma.current (by rw [comma.2]; rfl)
    have hexpr := expr_of_phrase d (p := .lowest) Nat.zero_lt_one hitem hend
      (hend.proceed d.tree .lowest (Nat.le_refl _))
    have hrest := exprs_of_items rest htail hc
    rintro (_ | n) hn
    · omega
    · simp only [Items.tokens, List.length_append, List.length_cons] at hn
      exact exprs_eq_ok.mpr ⟨d.tree, s₁, comma.1, hexpr n (by omega), hcomma.current,
        .inl ⟨comma.2, rest.tree, s₂, advance_of_reads hcomma, hrest n (by omega), rfl⟩⟩

end

/-- A whole expression before a token that is no operator. -/
theorem expr_of_whole (d : Phrase .whole) {t : Token} (hreads : Reads d.tokens s s')
    (ht : s'.current = some t) (h : Rules.standard.power t.kind = .lowest) :
    ∀ n ≥ 3 * d.tokens.length + 1, expr .standard n .lowest s = .ok d.tree s' := by
  have hend : Follows .whole s' := .of_power ht h
  have hexpr := expr_of_phrase d (p := .lowest) Nat.zero_lt_one hreads hend
    (hend.proceed d.tree .lowest (Nat.le_refl _))
  exact fun n hn => hexpr n (by omega)

mutual

/-- A statement before a token that is no operator. -/
theorem stmt_of_phrase : ∀ (d : StmtPhrase) {s s' : TokenStream} {t : Token},
    Reads d.tokens s s' → s'.current = some t → Rules.standard.power t.kind = .lowest →
    ∀ n ≥ 3 * d.tokens.length, stmt .standard n s = .ok d.tree s'
  | .declare word name assign e, s, s', t, hreads, ht, hpower => by
    obtain ⟨s₁, hword, hrest⟩ := hreads.of_cons
    obtain ⟨s₂, hname, hrest₁⟩ := hrest.of_cons
    obtain ⟨s₃, hassign, he⟩ := hrest₁.of_cons
    have hexpr := expr_of_whole e he ht hpower
    rintro (_ | _ | n) hn <;> simp only [StmtPhrase.tokens, List.length_cons] at hn
    · omega
    · omega
    · refine stmt_eq_ok.mpr ⟨word.1, .declare, hword.current, by rw [word.2]; rfl, ?_⟩
      exact stmtOf_declare_eq_ok.mpr ⟨word.1, s₁, name.ident, s₂, assign.1, s₃, e.tree,
        expect_of_reads hword, ident_of_reads hname, expect_of_reads hassign, hexpr n (by omega), rfl⟩
  | .assign name assign e, s, s', t, hreads, ht, hpower => by
    obtain ⟨s₁, hname, hrest⟩ := hreads.of_cons
    obtain ⟨s₂, hassign, he⟩ := hrest.of_cons
    have hexpr := expr_of_whole e he ht hpower
    rintro (_ | _ | n) hn <;> simp only [StmtPhrase.tokens, List.length_cons] at hn
    · omega
    · omega
    · refine stmt_eq_ok.mpr ⟨name.1, .assign, hname.current, by rw [name.2]; rfl, ?_⟩
      exact stmtOf_assign_eq_ok.mpr ⟨name.ident, s₁, assign.1, s₂, e.tree, ident_of_reads hname,
        expect_of_reads hassign, hexpr n (by omega), rfl⟩
  | .print word e, s, s', t, hreads, ht, hpower => by
    obtain ⟨s₁, hword, he⟩ := hreads.of_cons
    have hexpr := expr_of_whole e he ht hpower
    rintro (_ | _ | n) hn <;> simp only [StmtPhrase.tokens, List.length_cons] at hn
    · omega
    · omega
    · refine stmt_eq_ok.mpr ⟨word.1, .print, hword.current, by rw [word.2]; rfl, ?_⟩
      exact stmtOf_print_eq_ok.mpr
        ⟨word.1, s₁, e.tree, expect_of_reads hword, hexpr n (by omega), rfl⟩
  | .forEach word name colon e opening body closing, s, s', t, hreads, ht, hpower => by
    obtain ⟨s₁, hword, hrest⟩ := hreads.of_cons
    obtain ⟨s₂, hname, hrest₁⟩ := hrest.of_cons
    obtain ⟨s₃, hcolon, hrest₂⟩ := hrest₁.of_cons
    obtain ⟨s₄, he, hrest₃⟩ := hrest₂.of_append
    obtain ⟨s₅, hopening, hrest₄⟩ := hrest₃.of_cons
    obtain ⟨s₆, hbody, hclosing⟩ := hrest₄.of_append
    have hexpr := expr_of_whole e he hopening.current (by rw [opening.2]; rfl)
    have hblock := block_of_phrase body hbody hclosing.current (.inl closing.2)
    rintro (_ | _ | n) hn <;>
      simp only [StmtPhrase.tokens, List.length_cons, List.length_append, List.length_nil] at hn
    · omega
    · omega
    · refine stmt_eq_ok.mpr ⟨word.1, .forEach, hword.current, by rw [word.2]; rfl, ?_⟩
      exact stmtOf_forEach_eq_ok.mpr ⟨word.1, s₁, name.ident, s₂, colon.1, s₃, e.tree, s₄,
        opening.1, s₅, body.tree, s₆, closing.1, expect_of_reads hword, ident_of_reads hname,
        expect_of_reads hcolon, hexpr n (by omega), expect_of_reads hopening, hblock n (by omega),
        expect_of_reads hclosing, rfl⟩

/-- Statements before the end of a block or of the text. -/
theorem block_of_phrase : ∀ (d : SeqPhrase) {s s' : TokenStream} {t : Token},
    Reads d.tokens s s' → s'.current = some t → t.kind.IsEnd →
    ∀ n ≥ 3 * d.tokens.length + 1, block .standard n s = .ok d.tree s'
  | .one d, s, s', t, hreads, ht, hend => by
    have hstmt := stmt_of_phrase d hreads ht hend.power
    rintro (_ | n) hn <;> simp only [SeqPhrase.tokens] at hn
    · omega
    · exact block_eq_ok.mpr ⟨d.tree, s', t, hstmt n (by omega), ht,
        .inr ⟨hend.kind_ne_semicolon, rfl, rfl⟩⟩
  | .trailing d semicolon, s, s', t, hreads, ht, hend => by
    obtain ⟨s₁, hd, hsemicolon⟩ := hreads.of_append
    have hstmt := stmt_of_phrase d hd hsemicolon.current (by rw [semicolon.2]; rfl)
    rintro (_ | n) hn <;> simp only [SeqPhrase.tokens, List.length_append, List.length_cons] at hn
    · omega
    · exact block_eq_ok.mpr ⟨d.tree, s₁, semicolon.1, hstmt n (by omega), hsemicolon.current,
        .inl ⟨semicolon.2, s', t, advance_of_reads hsemicolon, ht, .inl ⟨hend.symm, rfl, rfl⟩⟩⟩
  | .more d semicolon rest, s, s', t, hreads, ht, hend => by
    obtain ⟨s₁, hd, hafter⟩ := hreads.of_append
    obtain ⟨s₂, hsemicolon, hrest⟩ := hafter.of_cons
    have hstmt := stmt_of_phrase d hd hsemicolon.current (by rw [semicolon.2]; rfl)
    have hblock := block_of_phrase rest hrest ht hend
    obtain ⟨t', ts, htokens, hnot⟩ := rest.tokens_eq_cons
    have hnext : s₂.current = some t' := by rw [htokens] at hrest; exact hrest.current
    rintro (_ | n) hn <;> simp only [SeqPhrase.tokens, List.length_append, List.length_cons] at hn
    · omega
    · exact block_eq_ok.mpr ⟨d.tree, s₁, semicolon.1, hstmt n (by omega), hsemicolon.current,
        .inl ⟨semicolon.2, s₂, t', advance_of_reads hsemicolon, hnext,
          .inr ⟨fun h => hnot h.symm, rest.tree, hblock n (by omega), rfl⟩⟩⟩

end

end Grammar

/-- Where the tokens of a program come first and then the end of the text, the program is read. -/
theorem Parser.program_of_phrase (d : SeqPhrase) {s u v : TokenStream} {t : Token} (hu : u.Standard)
    (hstart : start s = .ok () u) (hreads : Reads d.tokens u v) (ht : v.current = some t)
    (hkind : t.kind = .endOfText) : program .standard s = .ok d.tree v := by
  have hended : v.ended = true := ((hreads.standard hu).ended_iff t ht).mpr hkind
  have hlength := hreads.length_le hu
  have hbudget : budget u ≥ 3 * d.tokens.length + 1 := by
    unfold budget
    omega
  have hblock := Grammar.block_of_phrase d hreads ht (.inr hkind) (budget u) hbudget
  have hexpect : expect .endOfText v = .ok t v :=
    expect_eq_ok.mpr ⟨hkind, advance_eq_ok.mpr ⟨ht, .inl ⟨hended, rfl⟩⟩⟩
  exact program_eq_ok.mpr ⟨u, v, t, hstart, hblock, hexpect⟩

end ListScript
