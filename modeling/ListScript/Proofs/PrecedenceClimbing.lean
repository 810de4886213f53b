import ListScript.Proofs.GroupedTrees
import ListScript.Proofs.ParserCompleteness

/-!
# Any powers for the operators

The operators that group to the left may be given any powers. A parser of expressions then takes as many
operands and operators as bind tightly enough, and groups them by these powers.

* `Rules.withPowers` : the rules of the language with other powers;
* `Operand`, `Link`, `Chain` : single tokens as operands, with operators between them;
* `Climbs` : what a parser takes of some links, and the tree that it makes of them;
* `Grammar.exists_climbs` : so it does from any tree on whose outermost operator binds no less tightly
  than the next one;
* `Chain.Parsed`, `Chain.exists_parsed` : what it makes of a chain.
-/

namespace ListScript

variable {power : BinaryOp → Power}

/-! ## Other powers -/

/-- The rules of the language with the given powers for the operators that group to the left. -/
def Rules.withPowers (power : BinaryOp → Power) : Rules :=
  standard
    |>.withContinuation .plus (power .add) .binary
    |>.withContinuation .times (power .multiply) .binary
    |>.withContinuation .and (power .and) .binary
    |>.withContinuation .equal (power .equal) .binary

theorem Rules.continuation_withPowers {kind : Kind} {op : BinaryOp} (h : kind.binaryOp? = some op) :
    (withPowers power).continuation kind = some (power op, .binary) := by
  cases kind <;> cases h <;> rfl

/-! ## Chains -/

/-- An operand that is a single token. -/
inductive Operand where
  | number (t : Terminal .numeral) (value : Int64) (h : t.1.literal = some (.int value))
  | truth (t : Terminal .boolean) (value : Bool) (h : t.1.literal = some (.bool value))
  | name (t : Terminal .identifier)

namespace Operand

/-- The token of an operand. -/
def token : Operand → Token
  | .number t _ _ => t.1
  | .truth t _ _ => t.1
  | .name t => t.1

/-- The tree of an operand. -/
def tree : Operand → Expr
  | .number _ value _ => .int value
  | .truth _ value _ => .bool value
  | .name t => .var t.ident

theorem inOrder_tree (operand : Operand) : operand.tree.inOrder = [.inl operand.tree] := by
  cases operand <;> rfl

theorem rootPower?_tree (operand : Operand) : operand.tree.rootPower? power = none := by
  cases operand <;> rfl

theorem grouped_tree (operand : Operand) : operand.tree.Grouped power := by
  cases operand <;> trivial

end Operand

/-- An operator with the operand to its right. -/
structure Link where
  operator : Token
  op : BinaryOp
  denotes : operator.kind.binaryOp? = some op
  operand : Operand

namespace Link

/-- The tokens of some links. -/
def tokens : List Link → List Token
  | [] => []
  | link :: links => link.operator :: link.operand.token :: tokens links

/-- The operators and operands of some links. -/
def signs : List Link → List (Expr ⊕ BinaryOp)
  | [] => []
  | link :: links => .inr link.op :: .inl link.operand.tree :: signs links

theorem tokens_append (links more : List Link) : tokens (links ++ more) = tokens links ++ tokens more := by
  induction links with
  | nil => rfl
  | cons link links ih => rw [List.cons_append, tokens, tokens, ih, List.cons_append, List.cons_append]

theorem signs_append (links more : List Link) : signs (links ++ more) = signs links ++ signs more := by
  induction links with
  | nil => rfl
  | cons link links ih => rw [List.cons_append, signs, signs, ih, List.cons_append, List.cons_append]

theorem length_tokens (links : List Link) : (tokens links).length = 2 * links.length := by
  induction links with
  | nil => rfl
  | cons link links ih =>
    rw [tokens, List.length_cons, List.length_cons, List.length_cons, ih]
    omega

theorem exists_of_mem_signs {links : List Link} {op : BinaryOp} (h : .inr op ∈ signs links) :
    ∃ link ∈ links, link.op = op := by
  induction links with
  | nil => cases h
  | cons link links ih =>
    rw [signs, List.mem_cons, List.mem_cons] at h
    obtain heq | heq | h := h
    · cases heq
      exact ⟨link, List.mem_cons_self, rfl⟩
    · cases heq
    · obtain ⟨other, hmem, hop⟩ := ih h
      exact ⟨other, List.mem_cons_of_mem _ hmem, hop⟩

end Link

/-- An operand, and others with operators in front of them. -/
structure Chain where
  first : Operand
  links : List Link

namespace Chain

/-- The tokens of a chain. -/
def tokens (chain : Chain) : List Token := chain.first.token :: Link.tokens chain.links

/-- The operands of a chain with the operators between them. -/
def signs (chain : Chain) : List (Expr ⊕ BinaryOp) :=
  .inl chain.first.tree :: Link.signs chain.links

end Chain

/-! ## How far a parser climbs -/

/-- Of some links, which reach from `s` to `s'`, a parser has taken those up to the first one whose
operator does not bind more tightly than `bound`, and has made a grouped tree of them and of what stands
in front of them. -/
structure Climbs (power : BinaryOp → Power) (bound : Power) (links : List Link)
    (s s' : TokenStream) (front : List (Expr ⊕ BinaryOp)) (taken rest : List Link) (tree : Expr)
    (u : TokenStream) : Prop where
  split : links = taken ++ rest
  tight : ∀ link ∈ taken, bound < power link.op
  loose : ∀ link ∈ rest.head?, ¬ bound < power link.op
  reads : Reads (Link.tokens taken) s u
  left : Reads (Link.tokens rest) u s'
  inOrder : tree.inOrder = front ++ Link.signs taken
  grouped : tree.Grouped power

namespace Climbs

variable {bound : Power} {links taken rest taken' rest' : List Link} {s s₁ s₂ s' u v : TokenStream}
  {front : List (Expr ⊕ BinaryOp)} {left right tree : Expr} {link : Link}

/-- Nothing is taken before an operator that does not bind tightly enough. -/
theorem none (hreads : Reads (Link.tokens links) s s') (hleft : left.Grouped power)
    (hloose : ∀ link ∈ links.head?, ¬ bound < power link.op) :
    Climbs power bound links s s' left.inOrder [] links left s where
  split := rfl
  tight := fun _ hmem => (List.not_mem_nil hmem).elim
  loose := hloose
  reads := .nil s
  left := hreads
  inOrder := (List.append_nil _).symm
  grouped := hleft

/-- What is taken is what comes before the first operator that does not bind tightly enough. -/
theorem takeWhile_eq (h : Climbs power bound links s s' front taken rest tree u) :
    (links.takeWhile fun link => bound < power link.op) = taken := by
  have htight : ∀ link ∈ taken, decide (bound < power link.op) = true :=
    fun link hmem => decide_eq_true (h.tight link hmem)
  rw [h.split, List.takeWhile_append_of_pos htight]
  cases hrest : rest with
  | nil => simp
  | cons link rest =>
    have hloose : ¬ bound < power link.op := h.loose link (by rw [hrest]; rfl)
    simp [hloose]

theorem dropWhile_eq (h : Climbs power bound links s s' front taken rest tree u) :
    (links.dropWhile fun link => bound < power link.op) = rest := by
  have hsplit := List.takeWhile_append_dropWhile (p := fun link => decide (bound < power link.op))
    (l := links)
  rw [h.takeWhile_eq] at hsplit
  exact List.append_cancel_left (hsplit.trans h.split)

/-- The right operand of a link takes the links whose operators bind more tightly than that one. -/
theorem grouped_binary (h : Climbs power (power link.op) links s s' [.inl link.operand.tree] taken rest
      right u)
    (hleft : left.Grouped power) (hroot : ∀ p ∈ left.rootPower? power, ¬ p < power link.op) :
    (Expr.binary link.op left right).Grouped power := by
  refine ⟨hleft, h.grouped, hroot, fun p hp => ?_⟩
  obtain ⟨op, hop, rfl⟩ := Expr.exists_of_rootPower? hp
  rw [h.inOrder, List.singleton_append, List.mem_cons] at hop
  obtain ⟨other, hmem, rfl⟩ := Link.exists_of_mem_signs (hop.resolve_left Sum.inr_ne_inl)
  exact h.tight other hmem

/-- A link is taken with what its right operand takes, and then what is taken of the rest. -/
theorem cons (hlt : bound < power link.op) (hop : Reads [link.operator] s s₁)
    (hoperand : Reads [link.operand.token] s₁ s₂)
    (hright : Climbs power (power link.op) links s₂ s' [.inl link.operand.tree] taken rest right u)
    (hrest : Climbs power bound rest u s' (Expr.binary link.op left right).inOrder taken' rest' tree v) :
    Climbs power bound (link :: links) s s' left.inOrder (link :: (taken ++ taken')) rest' tree v where
  split := by rw [hright.split, hrest.split, List.cons_append, List.append_assoc]
  tight := by
    intro other hmem
    rw [List.mem_cons, List.mem_append] at hmem
    obtain rfl | hmem | hmem := hmem
    · exact hlt
    · exact Nat.lt_trans hlt (hright.tight other hmem)
    · exact hrest.tight other hmem
  loose := hrest.loose
  reads := by
    rw [Link.tokens, Link.tokens_append]
    exact hop.append (hoperand.append (hright.reads.append hrest.reads))
  left := hrest.left
  inOrder := by
    rw [hrest.inOrder, Expr.inOrder_binary, hright.inOrder, Link.signs, Link.signs_append,
      List.append_assoc]
    rfl
  grouped := hrest.grouped

end Climbs

namespace Grammar
open ListScript.Parser

variable {s s' : TokenStream} {t : Token}

/-- An operand is read at once. -/
theorem opening_of_operand {rules : Rules} {operand : Operand} (h : Reads [operand.token] s s') :
    ∀ n ≥ 1, opening rules n .atom s = .ok operand.tree s' := by
  refine opening_of_atom h ?_
  cases operand with
  | number t value hvalue => exact .inl ⟨t.2, value, hvalue, rfl⟩
  | truth t value hvalue => exact .inr (.inl ⟨t.2, value, hvalue, rfl⟩)
  | name t => exact .inr (.inr ⟨t.2, rfl⟩)

theorem opening_withPowers (operand : Operand) :
    (Rules.withPowers power).opening operand.token.kind = some .atom := by
  cases operand with
  | number t | truth t | name t =>
    show Rules.standardOpening t.1.kind = _
    rw [t.2]
    rfl

/-- A parser does not go on with a tree if the next operator does not bind tightly enough. -/
theorem proceed_of_loose {rules : Rules} {bound : Power} (left : Expr) (ht : s.current = some t)
    (hloose : ¬ bound < rules.power t.kind) :
    ∀ n ≥ 1, proceed rules n bound left s = .ok left s
  | _ + 1, _ => proceed_eq_ok.mpr ⟨t, ht, .inr ⟨hloose, rfl, rfl⟩⟩

theorem power_withPowers {kind : Kind} {op : BinaryOp} (h : kind.binaryOp? = some op) :
    (Rules.withPowers power).power kind = power op := by
  rw [Rules.power, Rules.continuation_withPowers h]

/-- A parser goes on with a grouped tree as far as operators bind tightly enough, if the next one does
not bind more tightly than the outermost one of the tree. The induction is on the number of links: the
right operand of the first one takes some of them, and those that it leaves are there for the tree with
this operand. -/
theorem exists_climbs (ht : s'.current = some t)
    (hstop : (Rules.withPowers power).continuation t.kind = none) {links : List Link}
    (bound : Power) {left : Expr} (hreads : Reads (Link.tokens links) s s')
    (hleft : left.Grouped power)
    (hroot : ∀ link ∈ links.head?, ∀ p ∈ left.rootPower? power, ¬ p < power link.op) :
    ∃ taken rest tree u, Climbs power bound links s s' left.inOrder taken rest tree u ∧
      ∀ n ≥ 6 * taken.length + 1, proceed (.withPowers power) n bound left s = .ok tree u := by
  induction hn : links.length using Nat.strongRecOn generalizing links bound left s with
  | ind n ih =>
    subst hn
    cases links with
    | nil =>
      cases hreads
      have hpower : (Rules.withPowers power).power t.kind = .lowest := by rw [Rules.power, hstop]
      refine ⟨[], [], left, s', .none (.nil s') hleft (fun _ hmem => by cases hmem), ?_⟩
      exact proceed_of_loose left ht (by rw [hpower]; exact Nat.not_lt_zero _)
    | cons link links =>
      have hcurrent : s.current = some link.operator := hreads.current
      by_cases hlt : bound < power link.op
      · obtain ⟨s₁, hop, hreads⟩ := hreads.of_cons
        obtain ⟨s₂, hoperand, hreads⟩ := hreads.of_cons
        obtain ⟨taken, rest, right, u, hright, hproceed⟩ := ih links.length (Nat.lt_succ_self _)
          (power link.op) hreads link.operand.grouped_tree
          (fun _ _ p hp => by rw [link.operand.rootPower?_tree] at hp; cases hp) rfl
        rw [link.operand.inOrder_tree] at hright
        have hexpr := expr_of_opening hoperand.current (opening_withPowers link.operand)
          (opening_of_operand hoperand) hproceed
        have hlength : rest.length < (link :: links).length := by
          rw [hright.split, List.length_cons, List.length_append]
          omega
        obtain ⟨taken', rest', tree, v, hrest, hproceed'⟩ := ih rest.length hlength bound
          hright.left (hright.grouped_binary hleft (hroot link rfl))
          (fun next hnext p hp => by cases hp; exact hright.loose next hnext) rfl
        refine ⟨_, rest', tree, v, .cons hlt hop hoperand hright hrest, fun n hn => ?_⟩
        refine proceed_of_binary hop (Rules.continuation_withPowers link.denotes) link.denotes hlt hexpr
          hproceed' n ?_
        rw [List.length_cons, List.length_append] at hn
        omega
      · refine ⟨[], link :: links, left, s, .none hreads hleft (fun other hmem => ?_), ?_⟩
        · cases hmem
          exact hlt
        · exact proceed_of_loose left hcurrent (by rwa [power_withPowers link.denotes])

end Grammar

/-! ## Chains -/

/-- The part of a chain before its first operator that does not bind more tightly than `bound`, all of
it if there is none. -/
def Chain.upTo (chain : Chain) (power : BinaryOp → Power) (bound : Power) : Chain :=
  ⟨chain.first, chain.links.takeWhile fun link => bound < power link.op⟩

/-- The links of a chain from this operator on. -/
def Chain.beyond (chain : Chain) (power : BinaryOp → Power) (bound : Power) : List Link :=
  chain.links.dropWhile fun link => bound < power link.op

/-- What a parser of expressions that bind more tightly than `bound` makes of a chain, which reaches
from `s` to `s'`. -/
structure Chain.Parsed (power : BinaryOp → Power) (bound : Power) (chain : Chain)
    (s s' : TokenStream) (tree : Expr) (u : TokenStream) : Prop where
  /-- Whatever bound for the depth it is given that is large enough, it gives the tree. -/
  parsed : ∀ n ≥ 3 * chain.tokens.length, Grammar.expr (.withPowers power) n bound s = .ok tree u
  /-- The bound that it has for a stream of the language is large enough. -/
  within : s.Standard →
    Parser.withBudget (fun n => Grammar.expr (.withPowers power) n bound) s = .ok tree u
  /-- It reads the chain up to the first operator that does not bind tightly enough. -/
  reads : Reads (chain.upTo power bound).tokens s u
  left : Reads (Link.tokens (chain.beyond power bound)) u s'
  /-- The tree has the operands and operators of this part from left to right. -/
  inOrder : tree.inOrder = (chain.upTo power bound).signs
  /-- Tighter operators are grouped first, and equally tight ones to the left. -/
  grouped : tree.Grouped power
  /-- There is no other such tree. -/
  unique : ∀ other : Expr, other.inOrder = (chain.upTo power bound).signs → other.Grouped power →
    other = tree

/-- Whatever powers the operators have that group to the left, and wherever a parser is to stop, it
reads a chain of operands as far as the operators bind tightly enough, and groups it by their powers. -/
theorem Chain.exists_parsed (power : BinaryOp → Power) (bound : Power) (chain : Chain)
    {s s' : TokenStream} {t : Token} (hreads : Reads chain.tokens s s') (ht : s'.current = some t)
    (hstop : (Rules.withPowers power).continuation t.kind = none) :
    ∃ tree u, chain.Parsed power bound s s' tree u := by
  obtain ⟨s₁, hfirst, hlinks⟩ := hreads.of_cons
  obtain ⟨taken, rest, tree, u, h, hproceed⟩ := Grammar.exists_climbs ht hstop bound hlinks
    chain.first.grouped_tree
    (fun _ _ p hp => by rw [chain.first.rootPower?_tree] at hp; cases hp)
  have hupTo : chain.upTo power bound = ⟨chain.first, taken⟩ := by rw [upTo, h.takeWhile_eq]
  have hinOrder : tree.inOrder = (chain.upTo power bound).signs := by
    rw [hupTo, h.inOrder, chain.first.inOrder_tree]
    rfl
  have hparsed : ∀ n ≥ 3 * chain.tokens.length,
      Grammar.expr (.withPowers power) n bound s = .ok tree u := by
    intro n hn
    refine Grammar.expr_of_opening hfirst.current (Grammar.opening_withPowers chain.first)
      (Grammar.opening_of_operand hfirst) hproceed n ?_
    rw [Chain.tokens, List.length_cons, Link.length_tokens, h.split, List.length_append] at hn
    omega
  refine ⟨tree, u, hparsed, fun hs => ?_, ?_, ?_, hinOrder, h.grouped, fun other hother hgrouped => ?_⟩
  · have hlength := hreads.length_le hs
    refine hparsed _ ?_
    rw [Chain.tokens, List.length_cons, Link.length_tokens] at hlength ⊢
    rw [Parser.budget]
    omega
  · rw [hupTo]
    exact hfirst.append h.reads
  · rw [beyond, h.dropWhile_eq]
    exact h.left
  · exact hgrouped.eq_of_inOrder h.grouped (hother.trans hinOrder.symm)

/-- The chain `a + 2 * b == c`. -/
def sampleChain : Chain where
  first := .name ⟨⟨.identifier, "a", ⟨⟨1, 1⟩, ⟨1, 2⟩⟩, none⟩, rfl⟩
  links := [
    ⟨⟨.plus, "+", ⟨⟨1, 3⟩, ⟨1, 4⟩⟩, none⟩, .add, rfl,
      .number ⟨⟨.numeral, "2", ⟨⟨1, 5⟩, ⟨1, 6⟩⟩, some (.int 2)⟩, rfl⟩ 2 rfl⟩,
    ⟨⟨.times, "*", ⟨⟨1, 7⟩, ⟨1, 8⟩⟩, none⟩, .multiply, rfl,
      .name ⟨⟨.identifier, "b", ⟨⟨1, 9⟩, ⟨1, 10⟩⟩, none⟩, rfl⟩⟩,
    ⟨⟨.equal, "==", ⟨⟨1, 11⟩, ⟨1, 13⟩⟩, none⟩, .equal, rfl,
      .name ⟨⟨.identifier, "c", ⟨⟨1, 14⟩, ⟨1, 15⟩⟩, none⟩, rfl⟩⟩]

/-- Sums and products bind equally tightly, and comparisons not at all. -/
def tiedPower : BinaryOp → Power
  | .add | .multiply => .additive
  | .equal => .lowest
  | .and | .cons => .logical

/-- For example, with equal powers for sums and products and none for comparisons, a parser makes
`(a + 2) * b` of `a + 2 * b == c`. -/
theorem Chain.exists_parsed_tied : ∃ s s' u, Reads sampleChain.tokens s s' ∧
    sampleChain.Parsed tiedPower .lowest s s'
      (.binary .multiply (.binary .add (.var ⟨"a", ⟨1, 1⟩⟩) (.int 2)) (.var ⟨"b", ⟨1, 9⟩⟩)) u := by
  have hitems : (TokenStream.ofSource Lexicon.standard (Source.ofText "a + 2 * b == c")).items =
      (sampleChain.tokens ++ [Token.endOfText ⟨1, 15⟩]).map .ok := by cbv
  obtain ⟨-, s, us, last, s', -, -, htokens, hreads, hlast, -⟩ := TokenStream.reads_of_items hitems
  obtain ⟨rfl, hlasts⟩ := List.append_inj' htokens rfl
  cases hlasts
  obtain ⟨tree, u, h⟩ := Chain.exists_parsed tiedPower .lowest sampleChain hreads hlast rfl
  have htree : Expr.binary .multiply (.binary .add (.var ⟨"a", ⟨1, 1⟩⟩) (.int 2))
      (.var ⟨"b", ⟨1, 9⟩⟩) = tree := by
    have hleaf {P : Power → Prop} : ∀ p ∈ (none : Option Power), P p := by simp
    have hsum : (Expr.binary .add (.var ⟨"a", ⟨1, 1⟩⟩) (.int 2)).Grouped tiedPower :=
      ⟨trivial, trivial, hleaf, hleaf⟩
    refine h.unique _ rfl ⟨hsum, trivial, fun p hp => ?_, hleaf⟩
    cases hp
    decide
  rw [htree]
  exact ⟨s, s', u, hreads, h⟩

end ListScript
