import ListScript.Grammar.Rules
import ListScript.Proofs.Derivations
import Mathlib.Data.List.Induction

/-!
# The grammar is unambiguous

No two derivations from one nonterminal derive the same tokens. For an induction the statement has
to be about the beginning of a longer list of tokens, and to say what may follow: a phrase of some
level is not followed by an operator of that level or of a tighter one.

* `Level.rank` : the place of a level in the order; `Stops l rest` : what may follow;
* `Phrase.chain`, `Phrase.exists_chain` : a phrase of a level whose operator groups to the left is an
  operand with operators and operands after it;
* `Determined n l` : phrases of up to `n` tokens are determined by the tokens that they begin;
  `determined_chain`, `determined_operand`, `determined_whole` : the induction;
* `Phrase.eq_of_append` : so it is with phrases of any length;
* `Kind.IsEnd` : what ends statements; `seq_determined` : they are determined by the tokens that they
  begin before an end;
* `ProgramPhrase.eq_of_tokens_eq` : the derivation of a program.
-/

namespace ListScript

/-! ## What may follow a phrase -/

/-- The place of a level in the order, as `Power.rank` counts the powers of its operators. The
operands stand above every power. -/
def Level.rank : Level → Nat
  | .whole => 1
  | .conjunction => 2
  | .comparison => 3
  | .sum => 4
  | .product => 5
  | .operand => 7

namespace Level

variable {l : Level} {kind : Kind} {op : BinaryOp}

theorem ne_operand_of_operator? (h : l.operator? = some (kind, op)) : l ≠ .operand := by
  rintro rfl
  cases h

theorem rank_lt_tighter (h : l ≠ .operand) : l.rank < l.tighter.rank := by
  cases l with
  | operand => exact absurd rfl h
  | whole | conjunction | comparison | sum | product => decide

theorem rank_whole_le (l : Level) : whole.rank ≤ l.rank := by
  cases l <;> decide

theorem rank_le_operand (l : Level) : l.rank ≤ operand.rank := by
  cases l <;> decide

/-- An operator binds as tightly as its level says. -/
theorem rank_power (h : l.operator? = some (kind, op)) :
    (Rules.standard.power kind).rank = l.rank := by
  cases l <;> cases h <;> rfl

end Level

/-- What follows is no operator of the level or of a tighter one. -/
def Stops (l : Level) : List Token → Prop
  | [] => True
  | t :: _ => (Rules.standard.power t.kind).rank < l.rank

theorem Stops.tighter {l : Level} {rest : List Token} (h : Stops l rest) (hl : l ≠ .operand) :
    Stops l.tighter rest := by
  cases rest with
  | nil => trivial
  | cons t _ => exact Nat.lt_trans h (Level.rank_lt_tighter hl)

/-- Before an operator of its own level stands a tighter phrase. -/
theorem stops_operator {l : Level} {kind : Kind} {op : BinaryOp}
    (h : l.operator? = some (kind, op)) (t : Terminal kind) (rest : List Token) :
    Stops l.tighter (t.1 :: rest) := by
  change (Rules.standard.power t.1.kind).rank < _
  rw [t.2, Level.rank_power h]
  exact Level.rank_lt_tighter (Level.ne_operand_of_operator? h)

/-- Nothing that goes on with no expression is taken for an operator. -/
theorem stops_of_power {l : Level} {t : Token} {rest : List Token}
    (h : Rules.standard.power t.kind = .lowest) : Stops l (t :: rest) := by
  change (Rules.standard.power t.kind).rank < _
  rw [h]
  cases l <;> decide

theorem stops_terminal {l : Level} {kind : Kind} (t : Terminal kind) {rest : List Token}
    (h : Rules.standard.power kind = .lowest) : Stops l (t.1 :: rest) :=
  stops_of_power (by rw [t.2]; exact h)

/-- Rows that begin with tokens of one kind. -/
theorem Terminal.cons_inj {kind : Kind} {t t' : Terminal kind} {ts ts' : List Token}
    (h : t.1 :: ts = t'.1 :: ts') : t = t' ∧ ts = ts' :=
  ⟨Subtype.ext (List.cons.inj h).1, (List.cons.inj h).2⟩

/-- A token is of one kind. -/
theorem Terminal.kind_eq {kind kind' : Kind} {t : Terminal kind} {t' : Terminal kind'}
    (h : t.1 = t'.1) : kind = kind' := by
  rw [← t.2, ← t'.2, h]

/-! ## Operators that group to the left -/

namespace Phrase

variable {l : Level} {kind : Kind} {op : BinaryOp}

/-- The phrase of an operand with operators and operands after it. -/
def chain (h : l.operator? = some (kind, op)) (head : Phrase l.tighter)
    (links : List (Terminal kind × Phrase l.tighter)) : Phrase l :=
  links.foldl (fun left link => .binary h left link.1 link.2)
    (.tighter (Level.ne_operand_of_operator? h) head)

/-- The tokens of operators with an operand after each. -/
def linkTokens (links : List (Terminal kind × Phrase l.tighter)) : List Token :=
  links.flatMap fun link => link.1.1 :: link.2.tokens

theorem chain_append (h : l.operator? = some (kind, op)) (head : Phrase l.tighter)
    (links : List (Terminal kind × Phrase l.tighter)) (t : Terminal kind) (e : Phrase l.tighter) :
    chain h head (links ++ [(t, e)]) = .binary h (chain h head links) t e := by
  simp [chain]

/-- Every phrase of such a level is one of these. -/
theorem exists_chain : ∀ {l : Level} (a : Phrase l) {kind : Kind} {op : BinaryOp}
    (h : l.operator? = some (kind, op)), ∃ head links, a = chain h head links
  | _, .tighter _ e => fun _ => ⟨e, [], rfl⟩
  | _, .binary h' left t right => fun h => by
    cases h.symm.trans h'
    obtain ⟨head, links, rfl⟩ := exists_chain left h
    exact ⟨head, links ++ [(t, right)], (chain_append h head links t right).symm⟩
  | _, .cons _ _ _ => fun h => nomatch h
  | _, .negate _ _ | _, .not _ _ | _, .number _ _ _ | _, .truth _ _ _ | _, .name _
  | _, .group _ _ _ | _, .list _ _ _ => fun h => nomatch h

theorem tokens_chain (h : l.operator? = some (kind, op)) (head : Phrase l.tighter)
    (links : List (Terminal kind × Phrase l.tighter)) :
    (chain h head links).tokens = head.tokens ++ linkTokens links := by
  induction links using List.reverseRecOn with
  | nil => simp [chain, tokens, linkTokens]
  | append_singleton links link ih =>
    obtain ⟨t, e⟩ := link
    rw [chain_append, tokens, ih]
    simp [linkTokens]

end Phrase

/-! ## Expressions -/

/-- Phrases of up to `n` tokens are determined by a list of tokens that they begin. -/
def Determined (n : Nat) (l : Level) : Prop :=
  ∀ (a b : Phrase l) (r r' : List Token), a.tokens.length ≤ n → a.tokens ++ r = b.tokens ++ r' →
    Stops l r → Stops l r' → a = b ∧ r = r'

section Chains
open Phrase

variable {l : Level} {kind : Kind} {op : BinaryOp} {n : Nat} {r r' : List Token}

theorem not_stops_operator (h : l.operator? = some (kind, op)) (t : Terminal kind) :
    ¬ Stops l (t.1 :: r) := by
  change ¬ (Rules.standard.power t.1.kind).rank < _
  rw [t.2, Level.rank_power h]
  exact Nat.lt_irrefl _

/-- An operand is followed by an operator of its level, or by what follows the whole phrase. -/
theorem stops_linkTokens (h : l.operator? = some (kind, op))
    (links : List (Terminal kind × Phrase l.tighter)) (hr : Stops l r) :
    Stops l.tighter (linkTokens links ++ r) := by
  cases links with
  | nil => exact hr.tighter (Level.ne_operand_of_operator? h)
  | cons link _ => exact stops_operator h link.1 _

theorem linkTokens_determined (h : l.operator? = some (kind, op))
    (ht : Determined n l.tighter) (hr : Stops l r) (hr' : Stops l r') :
    ∀ xs ys : List (Terminal kind × Phrase l.tighter), (linkTokens xs).length ≤ n →
      linkTokens xs ++ r = linkTokens ys ++ r' → xs = ys ∧ r = r'
  | [], [], _, heq => ⟨rfl, heq⟩
  | [], link :: _, _, heq => by
    change r = link.1.1 :: _ at heq
    exact absurd (heq ▸ hr) (not_stops_operator h link.1)
  | link :: _, [], _, heq => by
    change link.1.1 :: _ = r' at heq
    exact absurd (heq ▸ hr') (not_stops_operator h link.1)
  | (t, e) :: xs, (t', e') :: ys, hn, heq => by
    have hlen : (linkTokens ((t, e) :: xs)).length =
        1 + e.tokens.length + (linkTokens xs).length := by
      simp only [linkTokens, List.flatMap_cons, List.length_append, List.length_cons]
      omega
    have heq : t.1 :: (e.tokens ++ (linkTokens xs ++ r)) =
        t'.1 :: (e'.tokens ++ (linkTokens ys ++ r')) := by
      simpa [linkTokens] using heq
    obtain ⟨rfl, htail⟩ := Terminal.cons_inj heq
    obtain ⟨rfl, hrest⟩ := ht e e' _ _ (by omega) htail (stops_linkTokens h xs hr)
      (stops_linkTokens h ys hr')
    obtain ⟨rfl, rfl⟩ := linkTokens_determined h ht hr hr' xs ys (by omega) hrest
    exact ⟨rfl, rfl⟩

theorem determined_chain (h : l.operator? = some (kind, op)) (ht : Determined n l.tighter) :
    Determined n l := by
  intro a b r r' hn heq hr hr'
  obtain ⟨x, xs, rfl⟩ := exists_chain a h
  obtain ⟨y, ys, rfl⟩ := exists_chain b h
  rw [tokens_chain, List.length_append] at hn
  rw [tokens_chain, tokens_chain, List.append_assoc, List.append_assoc] at heq
  obtain ⟨rfl, hrest⟩ := ht x y _ _ (by omega) heq (stops_linkTokens h xs hr)
    (stops_linkTokens h ys hr')
  obtain ⟨rfl, rfl⟩ := linkTokens_determined h ht hr hr' xs ys (by omega) hrest
  exact ⟨rfl, rfl⟩

end Chains

theorem determined_whole {n : Nat} (hA : Determined n .conjunction)
    (ih : ∀ m < n, Determined m .whole) : Determined n .whole := by
  have hstop : ∀ (t : Terminal .cons) (rest : List Token), Stops .conjunction (t.1 :: rest) := by
    intro t rest
    change (Rules.standard.power t.1.kind).rank < _
    rw [t.2]
    decide
  have hnot : ∀ (t : Terminal .cons) (rest : List Token), ¬ Stops .whole (t.1 :: rest) := by
    intro t rest
    change ¬ (Rules.standard.power t.1.kind).rank < _
    rw [t.2]
    decide
  intro a b r r' hn heq hr hr'
  have hne : Level.whole ≠ .operand := nofun
  cases a with
  | binary h => cases h
  | tighter _ x =>
    cases b with
    | binary h => cases h
    | tighter _ y =>
      obtain ⟨rfl, rfl⟩ := hA x y r r' hn heq (hr.tighter hne) (hr'.tighter hne)
      exact ⟨rfl, rfl⟩
    | cons y t z =>
      simp only [Phrase.tokens, List.append_assoc, List.cons_append] at heq hn
      obtain ⟨rfl, rfl⟩ := hA x y r _ hn heq (hr.tighter hne) (hstop t _)
      exact absurd hr (hnot t _)
  | cons x t z =>
    cases b with
    | binary h => cases h
    | tighter _ y =>
      simp only [Phrase.tokens, List.append_assoc, List.cons_append, List.length_append,
        List.length_cons] at heq hn
      obtain ⟨rfl, rfl⟩ := hA x y _ r' (by omega) heq (hstop t _) (hr'.tighter hne)
      exact absurd hr' (hnot t _)
    | cons y t' z' =>
      simp only [Phrase.tokens, List.append_assoc, List.cons_append, List.length_append,
        List.length_cons] at heq hn
      obtain ⟨rfl, htail⟩ := hA x y _ _ (by omega) heq (hstop t _) (hstop t' _)
      obtain ⟨rfl, hrest⟩ := Terminal.cons_inj htail
      obtain ⟨rfl, rfl⟩ := ih z.tokens.length (by omega) z z' r r' (Nat.le_refl _) hrest hr hr'
      exact ⟨rfl, rfl⟩

theorem items_determined {n : Nat} (hE : Determined n .whole) : ∀ (a b : Items)
    (c c' : Terminal .closeBracket) (r r' : List Token), a.tokens.length ≤ n →
      a.tokens ++ c.1 :: r = b.tokens ++ c'.1 :: r' → a = b ∧ c = c' ∧ r = r'
  | .one e, .one e', c, c', r, r', hn, heq => by
    obtain ⟨rfl, htail⟩ := hE e e' _ _ hn heq (stops_terminal c rfl) (stops_terminal c' rfl)
    obtain ⟨rfl, rfl⟩ := Terminal.cons_inj htail
    exact ⟨rfl, rfl, rfl⟩
  | .one e, .more e' comma _, c, c', r, r', hn, heq => by
    simp only [Items.tokens, List.append_assoc, List.cons_append] at heq
    obtain ⟨rfl, htail⟩ := hE e e' _ _ hn heq (stops_terminal c rfl) (stops_terminal comma rfl)
    cases Terminal.kind_eq (List.cons.inj htail).1
  | .more e comma _, .one e', c, c', r, r', hn, heq => by
    simp only [Items.tokens, List.append_assoc, List.cons_append, List.length_append] at heq hn
    obtain ⟨rfl, htail⟩ := hE e e' _ _ (by omega) heq (stops_terminal comma rfl)
      (stops_terminal c' rfl)
    cases Terminal.kind_eq (List.cons.inj htail).1
  | .more e comma rest, .more e' comma' rest', c, c', r, r', hn, heq => by
    simp only [Items.tokens, List.append_assoc, List.cons_append, List.length_append,
      List.length_cons] at heq hn
    obtain ⟨rfl, htail⟩ := hE e e' _ _ (by omega) heq (stops_terminal comma rfl)
      (stops_terminal comma' rfl)
    obtain ⟨rfl, hrest⟩ := Terminal.cons_inj htail
    obtain ⟨rfl, rfl, rfl⟩ := items_determined hE rest rest' c c' r r' (by omega) hrest
    exact ⟨rfl, rfl, rfl⟩

/-- The kind of the token with which an operand begins. -/
def Phrase.opener : Phrase .operand → Kind
  | .negate _ _ => .minus
  | .not _ _ => .not
  | .number _ _ _ => .numeral
  | .truth _ _ _ => .boolean
  | .name _ => .identifier
  | .group _ _ _ => .openParen
  | .list _ _ _ => .openBracket
  | .tighter h _ => absurd rfl h

theorem Phrase.tokens_opener : ∀ a : Phrase .operand, ∃ (t : Terminal a.opener) (rest : List Token),
    a.tokens = t.1 :: rest
  | .negate t _ | .not t _ | .number t _ _ | .truth t _ _ | .name t | .group t _ _ | .list t _ _ =>
    ⟨t, _, rfl⟩
  | .tighter h _ => absurd rfl h

theorem determined_operand {n : Nat} (ih : ∀ m < n, ∀ l, Determined m l) :
    Determined n .operand := by
  intro a b r r' hn heq hr hr'
  have hopener : a.opener = b.opener := by
    obtain ⟨t, _, ha⟩ := a.tokens_opener
    obtain ⟨t', _, hb⟩ := b.tokens_opener
    rw [ha, hb] at heq
    exact Terminal.kind_eq (List.cons.inj heq).1
  cases a with
  | tighter h => exact absurd rfl h
  | binary h => cases h
  | negate t e =>
    cases b with
    | tighter h => exact absurd rfl h
    | binary h => cases h
    | negate t' e' =>
      obtain ⟨rfl, hrest⟩ := Terminal.cons_inj heq
      obtain ⟨rfl, rfl⟩ := ih _ hn .operand e e' r r' (Nat.le_refl _) hrest hr hr'
      exact ⟨rfl, rfl⟩
    | _ => cases hopener
  | not t e =>
    cases b with
    | tighter h => exact absurd rfl h
    | binary h => cases h
    | not t' e' =>
      obtain ⟨rfl, hrest⟩ := Terminal.cons_inj heq
      obtain ⟨rfl, rfl⟩ := ih _ hn .operand e e' r r' (Nat.le_refl _) hrest hr hr'
      exact ⟨rfl, rfl⟩
    | _ => cases hopener
  | number t value h =>
    cases b with
    | tighter h => exact absurd rfl h
    | binary h => cases h
    | number t' value' h' =>
      obtain ⟨rfl, rfl⟩ := Terminal.cons_inj heq
      cases h.symm.trans h'
      exact ⟨rfl, rfl⟩
    | _ => cases hopener
  | truth t value h =>
    cases b with
    | tighter h => exact absurd rfl h
    | binary h => cases h
    | truth t' value' h' =>
      obtain ⟨rfl, rfl⟩ := Terminal.cons_inj heq
      cases h.symm.trans h'
      exact ⟨rfl, rfl⟩
    | _ => cases hopener
  | name t =>
    cases b with
    | tighter h => exact absurd rfl h
    | binary h => cases h
    | name t' =>
      obtain ⟨rfl, rfl⟩ := Terminal.cons_inj heq
      exact ⟨rfl, rfl⟩
    | _ => cases hopener
  | group t e c =>
    cases b with
    | tighter h => exact absurd rfl h
    | binary h => cases h
    | group t' e' c' =>
      simp only [Phrase.tokens, List.cons_append, List.append_assoc, List.nil_append,
        List.length_cons, List.length_append] at heq hn
      obtain ⟨rfl, htail⟩ := Terminal.cons_inj heq
      obtain ⟨rfl, hrest⟩ := ih e.tokens.length (by omega) .whole e e' _ _ (Nat.le_refl _) htail
        (stops_terminal c rfl) (stops_terminal c' rfl)
      obtain ⟨rfl, rfl⟩ := Terminal.cons_inj hrest
      exact ⟨rfl, rfl⟩
    | _ => cases hopener
  | list t items c =>
    cases b with
    | tighter h => exact absurd rfl h
    | binary h => cases h
    | list t' items' c' =>
      simp only [Phrase.tokens, List.cons_append, List.append_assoc, List.nil_append,
        List.length_cons, List.length_append] at heq hn
      obtain ⟨rfl, htail⟩ := Terminal.cons_inj heq
      obtain ⟨rfl, rfl, rfl⟩ := items_determined (ih items.tokens.length (by omega) .whole)
        items items' c c' r r' (Nat.le_refl _) htail
      exact ⟨rfl, rfl⟩
    | _ => cases hopener

/-- The tokens that a phrase begins determine the phrase. -/
theorem determined (n : Nat) : ∀ l, Determined n l := by
  induction n using Nat.strongRecOn with
  | ind n ih =>
    have hU : Determined n .operand := determined_operand ih
    have hT : Determined n .product := determined_chain rfl hU
    have hS : Determined n .sum := determined_chain rfl hT
    have hR : Determined n .comparison := determined_chain rfl hS
    have hA : Determined n .conjunction := determined_chain rfl hR
    have hE : Determined n .whole := determined_whole hA fun m hm => ih m hm .whole
    intro l
    cases l with
    | whole => exact hE
    | conjunction => exact hA
    | comparison => exact hR
    | sum => exact hS
    | product => exact hT
    | operand => exact hU

/-- A phrase is determined by the tokens that it begins. -/
theorem Phrase.eq_of_append {l : Level} {a b : Phrase l} {r r' : List Token}
    (heq : a.tokens ++ r = b.tokens ++ r') (hr : Stops l r) (hr' : Stops l r') :
    a = b ∧ r = r' :=
  determined a.tokens.length l a b r r' (Nat.le_refl _) heq hr hr'

/-! ## Statements -/

/-- The kind of the token with which a statement begins. -/
def StmtPhrase.opener : StmtPhrase → Kind
  | .declare _ _ _ _ => .varWord
  | .assign _ _ _ => .identifier
  | .print _ _ => .printWord
  | .forEach _ _ _ _ _ _ _ => .forWord

theorem StmtPhrase.tokens_opener : ∀ a : StmtPhrase, ∃ (t : Terminal a.opener) (rest : List Token),
    a.tokens = t.1 :: rest
  | .declare t _ _ _ | .assign t _ _ | .print t _ | .forEach t _ _ _ _ _ _ => ⟨t, _, rfl⟩

/-- The first statement. -/
def SeqPhrase.first : SeqPhrase → StmtPhrase
  | .one stmt | .trailing stmt _ | .more stmt _ _ => stmt

/-- The tokens after the first statement. -/
def SeqPhrase.after : SeqPhrase → List Token
  | .one _ => []
  | .trailing _ semicolon => [semicolon.1]
  | .more _ semicolon rest => semicolon.1 :: rest.tokens

theorem SeqPhrase.tokens_eq : ∀ a : SeqPhrase, a.tokens = a.first.tokens ++ a.after
  | .one _ => (List.append_nil _).symm
  | .trailing _ _ | .more _ _ _ => rfl

/-- The kinds of the tokens that stand after the last statement of a block or of a text. -/
def Kind.IsEnd (kind : Kind) : Prop := kind = .closeBrace ∨ kind = .endOfText

theorem Kind.IsEnd.power {kind : Kind} (h : kind.IsEnd) : Rules.standard.power kind = .lowest := by
  rcases h with rfl | rfl <;> rfl

theorem Kind.IsEnd.kind_ne_semicolon {kind : Kind} (h : kind.IsEnd) : kind ≠ .semicolon := by
  rcases h with rfl | rfl <;> decide

theorem Kind.IsEnd.stops {t : Token} {l : Level} {rest : List Token} (h : t.kind.IsEnd) :
    Stops l (t :: rest) :=
  stops_of_power h.power

theorem Kind.IsEnd.ne_semicolon {t : Token} (h : t.kind.IsEnd) (t' : Terminal .semicolon) :
    t ≠ t'.1 := by
  rintro rfl
  exact h.kind_ne_semicolon t'.2

theorem StmtPhrase.not_isEnd_opener (a : StmtPhrase) : ¬ a.opener.IsEnd := by
  rintro (h | h) <;> cases a <;> cases h

/-- No statement begins with the end. -/
theorem SeqPhrase.tokens_eq_cons (a : SeqPhrase) :
    ∃ t ts, a.tokens = t :: ts ∧ ¬ t.kind.IsEnd := by
  obtain ⟨t, rest, ha⟩ := a.first.tokens_opener
  refine ⟨t.1, rest ++ a.after, by rw [a.tokens_eq, ha]; rfl, ?_⟩
  rw [t.2]
  exact a.first.not_isEnd_opener

theorem SeqPhrase.tokens_ne_end {t : Token} {r r' : List Token} (h : t.kind.IsEnd)
    (a : SeqPhrase) : a.tokens ++ r ≠ t :: r' := by
  obtain ⟨t', ts, ha, hnot⟩ := a.tokens_eq_cons
  intro heq
  rw [ha] at heq
  obtain rfl := (List.cons.inj heq).1
  exact hnot h

theorem SeqPhrase.stops_after {c : Token} {r : List Token} (hc : c.kind.IsEnd) :
    ∀ a : SeqPhrase, Stops .whole (a.after ++ c :: r)
  | .one _ => hc.stops
  | .trailing _ t | .more _ t _ => stops_terminal t rfl

/-- Statements of up to `n` tokens are determined by the tokens that they begin, if the end comes
next. -/
def SeqDetermined (n : Nat) : Prop :=
  ∀ (a b : SeqPhrase) (c c' : Token) (r r' : List Token), a.tokens.length ≤ n →
    c.kind.IsEnd → c'.kind.IsEnd → a.tokens ++ c :: r = b.tokens ++ c' :: r' →
    a = b ∧ c = c' ∧ r = r'

theorem stmt_determined {n : Nat} (ih : ∀ m < n, SeqDetermined m) (a b : StmtPhrase)
    (r r' : List Token) (hn : a.tokens.length ≤ n) (heq : a.tokens ++ r = b.tokens ++ r')
    (hr : Stops .whole r) (hr' : Stops .whole r') : a = b ∧ r = r' := by
  have hopener : a.opener = b.opener := by
    obtain ⟨t, _, ha⟩ := a.tokens_opener
    obtain ⟨t', _, hb⟩ := b.tokens_opener
    rw [ha, hb] at heq
    exact Terminal.kind_eq (List.cons.inj heq).1
  cases a with
  | declare t x o e =>
    cases b with
    | declare t' x' o' e' =>
      obtain ⟨rfl, hname⟩ := Terminal.cons_inj heq
      obtain ⟨rfl, hassign⟩ := Terminal.cons_inj hname
      obtain ⟨rfl, hrest⟩ := Terminal.cons_inj hassign
      obtain ⟨rfl, rfl⟩ := Phrase.eq_of_append hrest hr hr'
      exact ⟨rfl, rfl⟩
    | _ => cases hopener
  | assign x o e =>
    cases b with
    | assign x' o' e' =>
      obtain ⟨rfl, hassign⟩ := Terminal.cons_inj heq
      obtain ⟨rfl, hrest⟩ := Terminal.cons_inj hassign
      obtain ⟨rfl, rfl⟩ := Phrase.eq_of_append hrest hr hr'
      exact ⟨rfl, rfl⟩
    | _ => cases hopener
  | print t e =>
    cases b with
    | print t' e' =>
      obtain ⟨rfl, hrest⟩ := Terminal.cons_inj heq
      obtain ⟨rfl, rfl⟩ := Phrase.eq_of_append hrest hr hr'
      exact ⟨rfl, rfl⟩
    | _ => cases hopener
  | forEach t x o e opening body c =>
    cases b with
    | forEach t' x' o' e' opening' body' c' =>
      simp only [StmtPhrase.tokens, List.cons_append, List.append_assoc, List.nil_append,
        List.length_cons, List.length_append] at heq hn
      obtain ⟨rfl, hname⟩ := Terminal.cons_inj heq
      obtain ⟨rfl, hcolon⟩ := Terminal.cons_inj hname
      obtain ⟨rfl, hrest⟩ := Terminal.cons_inj hcolon
      obtain ⟨rfl, htail⟩ := Phrase.eq_of_append hrest (stops_terminal opening rfl)
        (stops_terminal opening' rfl)
      obtain ⟨rfl, hbody⟩ := Terminal.cons_inj htail
      obtain ⟨rfl, hc, rfl⟩ := ih body.tokens.length (by omega) body body' c.1 c'.1 r r'
        (Nat.le_refl _) (.inl c.2) (.inl c'.2) hbody
      obtain rfl := Subtype.ext hc
      exact ⟨rfl, rfl⟩
    | _ => cases hopener

theorem seq_determined (n : Nat) : SeqDetermined n := by
  induction n using Nat.strongRecOn with
  | ind n ih =>
    intro a b c c' r r' hn hc hc' heq
    rw [a.tokens_eq, List.length_append] at hn
    rw [a.tokens_eq, b.tokens_eq, List.append_assoc, List.append_assoc] at heq
    obtain ⟨hfirst, hafter⟩ := stmt_determined ih a.first b.first _ _ (by omega) heq
      (a.stops_after hc) (b.stops_after hc')
    cases a with
    | one x =>
      obtain rfl : x = b.first := hfirst
      cases b with
      | one =>
        obtain ⟨rfl, rfl⟩ := List.cons.inj hafter
        exact ⟨rfl, rfl, rfl⟩
      | trailing _ t | more _ t => exact absurd (List.cons.inj hafter).1 (hc.ne_semicolon t)
    | trailing x t =>
      obtain rfl : x = b.first := hfirst
      cases b with
      | one => exact absurd (List.cons.inj hafter).1.symm (hc'.ne_semicolon t)
      | trailing _ t' =>
        obtain ⟨rfl, htail⟩ := Terminal.cons_inj hafter
        obtain ⟨rfl, rfl⟩ := List.cons.inj htail
        exact ⟨rfl, rfl, rfl⟩
      | more _ _ rest => exact absurd (List.cons.inj hafter).2.symm (rest.tokens_ne_end hc)
    | more x t rest =>
      obtain rfl : x = b.first := hfirst
      cases b with
      | one => exact absurd (List.cons.inj hafter).1.symm (hc'.ne_semicolon t)
      | trailing _ _ => exact absurd (List.cons.inj hafter).2 (rest.tokens_ne_end hc')
      | more _ t' rest' =>
        obtain ⟨rfl, hrest⟩ := Terminal.cons_inj hafter
        simp only [SeqPhrase.after, List.length_cons] at hn
        obtain ⟨rfl, rfl, rfl⟩ := ih rest.tokens.length (by omega) rest rest' c c' r r'
          (Nat.le_refl _) hc hc' hrest
        exact ⟨rfl, rfl, rfl⟩

/-- A program has one derivation. -/
theorem ProgramPhrase.eq_of_tokens_eq {p q : ProgramPhrase} (h : p.tokens = q.tokens) : p = q := by
  obtain ⟨a, t⟩ := p
  obtain ⟨b, t'⟩ := q
  obtain ⟨rfl, ht, -⟩ := seq_determined _ a b t.1 t'.1 [] [] (Nat.le_refl _) (.inr t.2) (.inr t'.2) h
  obtain rfl := Subtype.ext ht
  rfl

end ListScript
