import ListScript.Proofs.CaretPlaces
import ListScript.Proofs.ItemsInOrder
import ListScript.Proofs.ResumedReading

/-!
# Failures have places in the source

Wherever the place of a failure comes from, a token, a malformed character, a numeral out of range, a
line that cannot be read or a name in the tree, it is that of an item of the tokens. Items have places
whose lines and columns are counted from one. There is one exception: the end of a source that holds
nothing stands where no line has begun.

* `Position.FromOne`, `Reader.CountsFromOne` : places that are counted from one, and what keeps them so
  (`Reader.ends_significant_fromOne`, `TokenStream.ends_advance_fromOne`);
* `TokenStream.Reached.fromOne` : the places of the items up to the first error;
* `Source.Fails`, `Source.Fails.exists_item` : the failures of a source, and their items;
* `Position.IsIn`, `Position.pastEnd` : the places in a text and the one just behind it
  (`TokenStream.Reached.isIn`);
* `place_of_failure` : the places of all failures.
-/

namespace ListScript

/-! ## Counting from one -/

/-- The line and the column are counted from one. -/
structure Position.FromOne (p : Position) : Prop where
  line : 1 ≤ p.line
  column : 1 ≤ p.column

theorem Position.FromOne.right {p : Position} (h : p.FromOne) (n : Nat) : (p.right n).FromOne :=
  ⟨h.line, Nat.le_trans h.column (Nat.le_add_right _ n)⟩

namespace Reader

/-- Columns are counted from one, and lines are as soon as there is one at hand. -/
structure CountsFromOne (r : Reader) : Prop where
  column : 1 ≤ r.column
  line : r.rest ≠ [] → 1 ≤ r.line

theorem countsFromOne_ofSource (p : Pattern) (source : Source) : (ofSource p source).CountsFromOne :=
  ⟨Nat.le_refl 1, fun h => absurd rfl h⟩

variable {r : Reader}

/-- The place of a line that was read, and of one that cannot be read, is counted from one. -/
theorem ends_more_fromOne (h : r.CountsFromOne) :
    Ends (fun found s => s.CountsFromOne ∧ s.span = r.span ∧ (found = true → s.position.FromOne))
      (fun e _ => e.isFatal = true ∧ ∀ p ∈ e.position?, p.FromOne) (more r) := by
  unfold more
  split
  · next hrest =>
    have hrest : r.rest ≠ [] := by simpa using hrest
    exact .ok ⟨h, rfl, fun _ => ⟨h.line hrest, h.column⟩⟩
  · split
    · exact .ok ⟨h, rfl, nofun⟩
    · split
      · exact .ok ⟨⟨h.column, h.line⟩, rfl, nofun⟩
      · have hfirst : 1 ≤ r.line + 1 := Nat.le_add_left 1 r.line
        exact .ok ⟨⟨Nat.le_refl 1, fun _ => hfirst⟩, rfl, fun _ => ⟨hfirst, Nat.le_refl 1⟩⟩
      · refine .error ⟨rfl, ?_⟩
        rintro _ ⟨⟩
        exact ⟨Nat.le_add_left 1 r.line, Nat.le_refl 1⟩

/-- So is the place of what is passed over. -/
theorem ends_take_fromOne (h : r.position.FromOne) :
    Ends (fun _ s => s.CountsFromOne ∧ s.span.start.FromOne ∧ s.span.stop.FromOne)
      (fun e s => s.CountsFromOne ∧ s.span = r.span ∧ ∀ p ∈ e.position?, p.FromOne) (take r) := by
  unfold take
  split
  · next lexeme _ =>
    have hstop := h.right lexeme.text.length
    exact .ok ⟨⟨hstop.column, fun _ => hstop.line⟩, h, hstop⟩
  · split
    · refine .error ⟨⟨h.column, fun _ => h.line⟩, rfl, ?_⟩
      rintro _ ⟨⟩
    · have hstop := h.right 1
      refine .error ⟨⟨hstop.column, fun _ => hstop.line⟩, rfl, ?_⟩
      rintro _ ⟨⟩
      exact h

/-- Where the next lexeme stands that is no separator is counted from one. At the end the last lexeme is
one that was passed over, or there was nothing more to read. -/
theorem ends_significant_fromOne (h : r.CountsFromOne) :
    Ends (fun found s => s.CountsFromOne ∧ (s.span.start.FromOne ∧ s.span.stop.FromOne ∨
        found = false ∧ s.span = r.span ∧ more r = .ok false s))
      (fun e s => (∀ p ∈ e.position?, p.FromOne) ∧
        (e.isFatal = false → s.CountsFromOne ∧ (r.span.stop.FromOne → s.span.stop.FromOne)))
      (significant r) := by
  fun_induction significant r with
  | case1 r e s hm =>
    obtain ⟨hfatal, hplace⟩ := (ends_more_fromOne h).of_error hm
    exact .error ⟨hplace, fun hnot => Bool.noConfusion (hfatal.symm.trans hnot)⟩
  | case2 r s hm =>
    obtain ⟨hs, hspan, -⟩ := (ends_more_fromOne h).of_ok hm
    exact .ok ⟨hs, .inr ⟨rfl, hspan, hm⟩⟩
  | case3 r s hm e t ht =>
    obtain ⟨-, hspan, hplace⟩ := (ends_more_fromOne h).of_ok hm
    obtain ⟨hcounts, hspan', herror⟩ := (ends_take_fromOne (hplace rfl)).of_error ht
    exact .error ⟨herror, fun _ => ⟨hcounts, fun hstop => by rwa [hspan', hspan]⟩⟩
  | case4 r s hm t ht hb hlt ih =>
    obtain ⟨-, -, hplace⟩ := (ends_more_fromOne h).of_ok hm
    obtain ⟨hcounts, hstart, hstop⟩ := (ends_take_fromOne (hplace rfl)).of_ok ht
    refine (ih hcounts).mono ?_ ?_
    · rintro found u ⟨hu, hspan | ⟨-, hspan, -⟩⟩
      · exact ⟨hu, .inl hspan⟩
      · exact ⟨hu, .inl (by rw [hspan]; exact ⟨hstart, hstop⟩)⟩
    · rintro e u ⟨herror, hu⟩
      exact ⟨herror, fun hnot => ⟨(hu hnot).1, fun _ => (hu hnot).2 hstop⟩⟩
  | case5 r s hm t ht hb =>
    obtain ⟨-, -, hplace⟩ := (ends_more_fromOne h).of_ok hm
    obtain ⟨hcounts, hspan⟩ := (ends_take_fromOne (hplace rfl)).of_ok ht
    exact .ok ⟨hcounts, .inl hspan⟩

/-- Only in a source that holds nothing is there nothing to read from the first. -/
theorem eq_ended_of_more {p : Pattern} {source : Source} {s : Reader}
    (h : more (ofSource p source) = .ok false s) : source = Source.ended := by
  obtain ⟨pending, fault⟩ := source
  cases pending with
  | nil =>
    cases fault with
    | none => rfl
    | some cause => cases h
  | cons reading pending => cases reading <;> cases h

end Reader

/-! ## The places of the items -/

namespace TokenStream

/-- The place of an item: where the token begins, or where the error is. -/
def itemPlace? : Except (Stop TokenError) Token → Option Position
  | .ok t => some t.span.start
  | .error (.error e) => e.position?
  | .error (.defect _) => none

/-- What comes of a lexeme stands where the lexeme does. -/
theorem itemPlace_of_token (lexicon : Lexicon) (r : Reader) :
    ∀ p ∈ itemPlace? (lexicon.token r), p = r.span.start := by
  unfold Lexicon.token
  split
  · unfold Lexicon.wordToken
    split <;> rintro _ ⟨⟩ <;> rfl
  · unfold Lexicon.numeralToken
    split
    · exact nofun
    · split <;> rintro _ ⟨⟩ <;> rfl
  · unfold Lexicon.symbolToken
    split
    · rintro _ ⟨⟩
      rfl
    · exact nofun

/-- Places are counted from one, that of the end of the last lexeme among them. -/
def FromOne (s : TokenStream) : Prop :=
  s.ended = false → s.reader.CountsFromOne ∧ s.reader.span.stop.FromOne

variable {s : TokenStream}

/-- A step gives a token or an error at such a place, unless there is nothing more to read: the end of
the text stands where the last lexeme ends. -/
theorem ends_advance_fromOne (hended : s.ended = false) (h : s.reader.CountsFromOne) :
    Ends (fun _ s' => ∃ t, s'.current = some t ∧ (t.span.start.FromOne ∧ s'.FromOne ∨
        t.span.start = s.reader.span.stop ∧ s'.ended = true ∧ ∃ r, s.reader.more = .ok false r))
      (fun stop s' => (∀ p ∈ itemPlace? (.error stop), p.FromOne) ∧
        (s.reader.span.stop.FromOne → s'.FromOne)) s.advance := by
  have hsignificant := Reader.ends_significant_fromOne h
  unfold advance
  rw [if_neg (by simp [hended])]
  cases hr : s.reader.significant with
  | error e r =>
    obtain ⟨hplace, hgood⟩ := hsignificant.of_error hr
    dsimp only
    split
    · exact .error ⟨hplace, fun _ => nofun⟩
    · next hfatal =>
      obtain ⟨hcounts, hstop⟩ := hgood (Bool.eq_false_iff.mpr hfatal)
      exact .error ⟨hplace, fun h _ => ⟨hcounts, hstop h⟩⟩
  | ok found r =>
    obtain ⟨hcounts, hspan⟩ := hsignificant.of_ok hr
    cases found with
    | false =>
      obtain hspan | ⟨-, hspan, hmore⟩ := hspan
      · exact .ok ⟨_, rfl, .inl ⟨hspan.2, nofun⟩⟩
      · exact .ok ⟨_, rfl, .inr ⟨congrArg Span.stop hspan, rfl, r, hmore⟩⟩
    | true =>
      obtain ⟨hstart, hstop⟩ := hspan.resolve_right nofun
      have hplace := itemPlace_of_token s.lexicon r
      dsimp only
      cases htoken : s.lexicon.token r with
      | ok t =>
        rw [htoken] at hplace
        obtain htoken := hplace _ rfl
        exact .ok ⟨t, rfl, .inl ⟨by rw [htoken]; exact hstart, fun _ => ⟨hcounts, hstop⟩⟩⟩
      | error stop =>
        rw [htoken] at hplace
        refine .error ⟨fun p hp => ?_, fun _ _ => ⟨hcounts, hstop⟩⟩
        rw [hplace p hp]
        exact hstart

/-- A defect ends an iteration. -/
theorem itemsWithin_of_defect {s' : TokenStream} {defect : Defect} {n : Nat}
    (hended : s.ended = false) (h : s.advance = .error (.defect defect) s') :
    s.itemsWithin (n + 1) = [.error (.defect defect)] := by
  simp only [itemsWithin, next_of_error hended h]

/-- All items of an iteration stand in places that are counted from one if its reader is in one. -/
theorem fromOne_of_mem_itemsWithin (h : s.FromOne) (n : Nat) :
    ∀ item ∈ s.itemsWithin n, ∀ p ∈ itemPlace? item, p.FromOne := by
  induction n generalizing s with
  | zero => exact fun item hmem => absurd hmem List.not_mem_nil
  | succ n ih =>
    cases hended : s.ended with
    | true =>
      rw [itemsWithin_of_ended hended]
      exact fun item hmem => absurd hmem List.not_mem_nil
    | false =>
      obtain ⟨hcounts, hstop⟩ := h hended
      have hadvance := ends_advance_fromOne hended hcounts
      cases hstep : s.advance with
      | ok k s' =>
        obtain ⟨t, ht, hplace⟩ := hadvance.of_ok hstep
        rw [itemsWithin_of_ok hended hstep ht, List.forall_mem_cons]
        obtain ⟨hstart, hs'⟩ | ⟨hstart, hended', -⟩ := hplace
        · refine ⟨?_, ih hs'⟩
          rintro _ ⟨⟩
          exact hstart
        · refine ⟨?_, ih fun h => absurd (hended'.symm.trans h) nofun⟩
          rintro _ ⟨⟩
          rw [hstart]
          exact hstop
      | error stop s' =>
        obtain ⟨hplace, hs'⟩ := hadvance.of_error hstep
        cases stop with
        | defect defect =>
          rw [itemsWithin_of_defect hended hstep, List.forall_mem_singleton]
          exact nofun
        | error e =>
          rw [itemsWithin_of_error hended hstep, List.forall_mem_cons]
          exact ⟨hplace, ih (hs' hstop)⟩

/-- Only tokens come before the item. -/
def Reached (items : List (Except (Stop TokenError) Token)) (item : Except (Stop TokenError) Token) :
    Prop :=
  ∃ (earlier : List Token) (later : List (Except (Stop TokenError) Token)),
    items = earlier.map .ok ++ item :: later

/-- An item that is reached stands in such a place, unless the source holds nothing: its end stands
where no line has begun. -/
theorem Reached.fromOne {lexicon : Lexicon} {source : Source} {item : Except (Stop TokenError) Token}
    {p : Position} (h : Reached (ofSource lexicon source).items item) (hp : p ∈ itemPlace? item) :
    p.FromOne ∨ source = Source.ended ∧ p = Position.origin := by
  obtain ⟨earlier, later, hitems⟩ := h
  have hadvance := ends_advance_fromOne (s := ofSource lexicon source) rfl
    (Reader.countsFromOne_ofSource _ _)
  rw [items] at hitems
  cases hstep : (ofSource lexicon source).advance with
  | ok k s' =>
    obtain ⟨t, ht, hplace⟩ := hadvance.of_ok hstep
    rw [itemsWithin_of_ok rfl hstep ht] at hitems
    cases earlier with
    | nil =>
      obtain ⟨rfl, -⟩ := List.cons.inj hitems
      cases hp
      obtain ⟨hstart, -⟩ | ⟨hstart, -, r, hmore⟩ := hplace
      · exact .inl hstart
      · exact .inr ⟨Reader.eq_ended_of_more hmore, hstart⟩
    | cons first earlier =>
      obtain ⟨-, hrest⟩ := List.cons.inj hitems
      have hmem : item ∈ s'.itemsWithin (ofSource lexicon source).reader.size := by
        rw [hrest]
        exact List.mem_append_right _ List.mem_cons_self
      obtain ⟨-, hs'⟩ | ⟨-, hended, -⟩ := hplace
      · exact .inl (fromOne_of_mem_itemsWithin hs' _ item hmem p hp)
      · rw [itemsWithin_of_ended hended] at hmem
        cases hmem
  | error stop s' =>
    obtain ⟨hplace, -⟩ := hadvance.of_error hstep
    obtain ⟨more, hmore⟩ : ∃ more, (ofSource lexicon source).itemsWithin
        ((ofSource lexicon source).reader.size + 1) = .error stop :: more := by
      cases stop with
      | defect defect => exact ⟨[], itemsWithin_of_defect rfl hstep⟩
      | error e => exact ⟨_, itemsWithin_of_error rfl hstep⟩
    rw [hmore] at hitems
    cases earlier with
    | nil =>
      obtain ⟨rfl, -⟩ := List.cons.inj hitems
      exact .inl (hplace p hp)
    | cons first earlier => cases (List.cons.inj hitems).1

end TokenStream

/-! ## The failures of a source -/

/-- What fails with a source: a run of its program, or the reading of its tokens if it is a text. -/
inductive Source.Fails (source : Source) : Failure → Prop
  | run {σ : Type} [Writer σ] {typecheck : Bool} {sink sink' : σ} {failure : Failure}
    (h : Program.run source typecheck sink = .error (.error failure) sink') : Fails source failure
  | tokens {text : String} {e : TokenError} (source_eq : source = Source.ofText text)
    (h : tokenize text = .error (.error e)) : Fails source (.token e)

/-- Items that do not all succeed give the error that is reached first. -/
theorem TokenStream.reached_of_mapM_eq_error {e : Stop TokenError}
    {items : List (Except (Stop TokenError) Token)} (h : items.mapM id = .error e) :
    Reached items (.error e) := by
  induction items with
  | nil => cases h
  | cons item items ih =>
    rw [List.mapM_cons] at h
    cases item with
    | error e' =>
      cases h
      exact ⟨[], items, rfl⟩
    | ok t =>
      cases hrest : items.mapM id with
      | ok tokens =>
        rw [hrest] at h
        cases h
      | error e' =>
        rw [hrest] at h
        cases h
        obtain ⟨earlier, later, rfl⟩ := ih hrest
        exact ⟨t :: earlier, later, rfl⟩

section Failures

variable {source : Source} {failure : Failure} {p : Position}

/-- The place of a name that stands in a program is that of one of its tokens. -/
theorem Ident.StandsIn.exists_reached {d : ProgramPhrase} {ident : Ident}
    (hitems : (TokenStream.ofSource Lexicon.standard source).items = d.tokens.map .ok)
    (h : ident.StandsIn d.body.tokens) : ∃ item,
      TokenStream.Reached (TokenStream.ofSource Lexicon.standard source).items item ∧
        ident.position ∈ TokenStream.itemPlace? item := by
  obtain ⟨t, ht, -, -, hplace⟩ := h
  obtain ⟨earlier, later, htokens⟩ := List.append_of_mem ht
  refine ⟨.ok t, ⟨earlier, (later ++ [d.stop.1]).map .ok, ?_⟩, congrArg some hplace⟩
  rw [hitems, ProgramPhrase.tokens, htokens]
  simp

/-- The place of a failure is that of an item that is reached. -/
theorem Source.Fails.exists_reached (h : source.Fails failure) (hp : failure.position? = some p) :
    ∃ item, TokenStream.Reached (TokenStream.ofSource Lexicon.standard source).items item ∧
      p ∈ TokenStream.itemPlace? item := by
  cases h with
  | tokens source_eq h =>
    subst source_eq
    exact ⟨_, TokenStream.reached_of_mapM_eq_error h, hp⟩
  | run h =>
    obtain ⟨e, s, hparse, rfl⟩ | ⟨program, s, hparse, hfails⟩ := Program.run_eq_error h
    · cases haltsAt_of_parse hparse with
      | unexpected items_eq => exact ⟨_, ⟨_, _, items_eq⟩, hp⟩
      | token items_eq => exact ⟨_, ⟨_, _, items_eq⟩, hp⟩
    · obtain ⟨d, hitems, rfl⟩ := exists_derivation_of_parse hparse
      obtain ⟨e, types, hcheck, rfl⟩ | ⟨e, m, hexecute, -, rfl⟩ := hfails
      · cases e with
        | mismatch expected found => cases hp
        | undeclared name position | alreadyDeclared name position =>
          cases hp
          exact (SeqPhrase.standsIn_of_check hcheck rfl).exists_reached hitems
      · cases e with
        | value error | output error => cases hp
        | undeclared name position | alreadyDeclared name position =>
          cases hp
          exact (SeqPhrase.standsIn_of_execute hexecute rfl).exists_reached hitems

end Failures

/-! ## Places in a text -/

namespace Position

/-- The place of a character of the text, or the one just behind its last character. -/
inductive IsIn (text : List Char) : Position → Prop
  | character {before rest : List Char} {c : Char} (text_eq : text = before ++ c :: rest) :
    IsIn text (after before)
  | behind {before : List Char} {c : Char} (text_eq : text = before ++ [c]) :
    IsIn text ((after before).right 1)

/-- The place just behind the last character of a text. -/
def pastEnd (text : List Char) : Position := (after text.dropLast).right 1

/-- No place comes before that of a text with which its own begins. -/
theorem not_before_after (text more : List Char) (n : Nat) :
    ¬ ((after (text ++ more)).right n).Before (after text) := by
  by_cases hfeed : '\n' ∈ more
  · have hpos : 0 < more.count '\n' := List.count_pos_iff.mpr hfeed
    simp only [Before, right, after, List.count_append]
    omega
  · rw [after_append hfeed]
    simp only [Before, right]
    omega

/-- No place in a text lies beyond the one just behind it. -/
theorem IsIn.not_pastEnd_before {text : List Char} {p : Position} (h : IsIn text p) :
    ¬ (pastEnd text).Before p := by
  cases h with
  | character text_eq =>
    rw [pastEnd, text_eq, List.dropLast_append_of_ne_nil (List.cons_ne_nil _ _)]
    exact not_before_after _ _ 1
  | behind text_eq =>
    rw [pastEnd, text_eq, List.dropLast_concat]
    simp only [Before]
    omega

end Position

/-- No piece is empty. -/
theorem Piece.FoundBy.exists_concat {p : Pattern} (hp : p.Proper) {piece : Piece}
    (h : piece.FoundBy p) : ∃ w c, piece.text.toList = w ++ [c] := by
  have hne : piece.text.toList ≠ [] := by
    cases h with
    | lexeme found =>
      rw [show (Piece.ofLexeme _ _).text.toList = _ from String.toList_ofList]
      exact List.length_pos_iff.mp (hp.length_pos found)
    | malformed none =>
      rw [show (Piece.ofChar _ _).text.toList = _ from String.toList_singleton _]
      exact List.cons_ne_nil _ _
  obtain ⟨w, c, hw⟩ := (List.eq_nil_or_concat _).resolve_left hne
  exact ⟨w, c, by rw [hw, List.concat_eq_append]⟩

namespace Pattern

variable {p : Pattern} {piece : Piece}

theorem exists_line_of_mem_piecesOfLines {number : Nat} {lines : List (List Char)}
    (h : piece ∈ p.piecesOfLines number lines) :
    ∃ line ∈ lines, ∃ start, piece ∈ p.piecesOfLine start line := by
  induction lines generalizing number with
  | nil => cases h
  | cons line lines ih =>
    rw [piecesOfLines] at h
    obtain h | h := List.mem_append.mp h
    · exact ⟨line, List.mem_cons_self, _, h⟩
    · obtain ⟨line', hmem, hpiece⟩ := ih h
      exact ⟨line', List.mem_cons_of_mem _ hmem, hpiece⟩

/-- Only the last character of a piece may be a line feed. -/
theorem lineFeed_not_mem_of_mem_pieces (hp : p.Proper) {text w : List Char} {c : Char}
    (h : piece ∈ p.pieces text) (hw : piece.text.toList = w ++ [c]) : '\n' ∉ w := by
  obtain ⟨line, hline, start, hpiece⟩ := exists_line_of_mem_piecesOfLines h
  obtain ⟨parts, more, hsplit⟩ := List.append_of_mem hline
  have hparts := Text.parts_splitAfter (· == '\n') text
  rw [hsplit] at hparts
  obtain ⟨body, x, rfl, hbody, -⟩ := hparts.exists_body
  -- the piece stands somewhere in the line
  obtain ⟨earlier, later, hpieces⟩ := List.append_of_mem hpiece
  have hchars := chars_piecesOfLine hp (body ++ [x]) start
  rw [hpieces, Piece.chars, List.flatMap_append, List.flatMap_cons, hw, List.append_assoc,
    List.singleton_append] at hchars
  have hdrop := congrArg List.dropLast hchars
  rw [List.dropLast_concat, List.dropLast_append_of_ne_nil (by simp),
    List.dropLast_append_of_ne_nil (List.cons_ne_nil _ _)] at hdrop
  intro hmem
  have hfeed : ('\n' == '\n') = false := by
    refine hbody '\n' ?_
    rw [← hdrop]
    exact List.mem_append_right _ (List.mem_append_left _ hmem)
  cases hfeed

/-- The last piece of a text ends just behind the last character. -/
theorem isIn_stop_of_last (hp : p.Proper) {text : List Char} {pieces : List Piece}
    (h : p.pieces text = pieces ++ [piece]) : piece.stop.IsIn text := by
  have hpiece : piece ∈ p.pieces text := by
    rw [h]
    exact List.mem_append_right _ List.mem_cons_self
  obtain ⟨w, c, hw⟩ := (foundBy_of_mem_pieces hp hpiece).exists_concat hp
  have hfeed := lineFeed_not_mem_of_mem_pieces hp hpiece hw
  have hchars := chars_pieces hp text
  have hplaced := placed_pieces hp text
  rw [h] at hchars hplaced
  obtain ⟨hstart, hstop⟩ := hplaced.of_mem
  have hbehind : piece.stop = (Position.after (Piece.chars pieces ++ w)).right 1 := by
    rw [hstop, hstart, hw, Position.after_append hfeed, List.length_append, List.nil_append]
    simp only [Position.right, Nat.add_assoc, List.length_singleton]
  have htext : text = (Piece.chars pieces ++ w) ++ [c] := by
    rw [← hchars, Piece.chars, List.flatMap_append, List.flatMap_singleton, hw, List.append_assoc]
    rfl
  rw [hbehind]
  exact .behind htext

/-- Every piece of a text begins at a character. -/
theorem isIn_start_of_mem (hp : p.Proper) {text : List Char} (h : piece ∈ p.pieces text) :
    piece.start.IsIn text := by
  obtain ⟨before, rest, htext, hstart⟩ := exists_place_of_mem_pieces hp h
  obtain ⟨w, c, hw⟩ := (foundBy_of_mem_pieces hp h).exists_concat hp
  obtain ⟨c', more, hcons⟩ := List.exists_cons_of_ne_nil (l := w ++ [c]) (by simp)
  rw [hw, hcons, List.cons_append] at htext
  rw [hstart]
  exact .character htext

end Pattern

namespace Lexicon

/-- What comes of a piece stands where the piece does. -/
theorem itemPlace_of_item? {lexicon : Lexicon} {piece : Piece}
    {item : Except (Stop TokenError) Token} (h : lexicon.item? piece = some item) :
    ∀ p ∈ TokenStream.itemPlace? item, p = piece.start := by
  cases item with
  | ok t =>
    rintro _ ⟨⟩
    rw [(text_of_item? h).2]
  | error stop =>
    cases stop with
    | defect defect => exact nofun
    | error e =>
      obtain rfl | rfl := error_of_item? h <;> rintro _ ⟨⟩ <;> rfl

theorem lastStop_concat (stop : Position) (pieces : List Piece) (text : String)
    (category : Option Category) (span : Span) :
    lastStop stop (pieces ++ [.lexeme text category span]) = span.stop := by
  induction pieces generalizing stop with
  | nil => rfl
  | cons piece pieces ih => cases piece <;> exact ih _

end Lexicon

/-- The places of the items of a text are in the text, if it is not empty: the end stands just behind
the last character. -/
theorem TokenStream.Reached.isIn {text : String} (htext : text ≠ "")
    {item : Except (Stop TokenError) Token} {p : Position}
    (h : Reached (ofSource Lexicon.standard (Source.ofText text)).items item)
    (hp : p ∈ itemPlace? item) : p.IsIn text.toList := by
  obtain ⟨earlier, later, hitems⟩ := h
  have hproper := Lexicon.proper_standard
  rw [items_ofText Lexicon.Proper.standard, Lexicon.itemsOf] at hitems
  rcases List.eq_nil_or_concat later with rfl | ⟨more, last, rfl⟩
  · -- the end of the text is reached, so there is no malformed character
    obtain ⟨htokens, hlast⟩ := List.append_inj' hitems rfl
    cases List.singleton_inj.mp hlast
    cases hp
    rcases List.eq_nil_or_concat (Lexicon.standard.pattern.pieces text.toList) with
      hpieces | ⟨pieces, piece, hpieces⟩
    · have hchars := Pattern.chars_pieces hproper text.toList
      rw [hpieces] at hchars
      exact absurd (String.toList_eq_nil_iff.mp hchars.symm) htext
    · rw [List.concat_eq_append] at hpieces
      have hin := Pattern.isIn_stop_of_last hproper hpieces
      cases piece with
      | lexeme found category span =>
        rw [hpieces, Lexicon.lastStop_concat]
        exact hin
      | malformed found position =>
        rw [hpieces, List.filterMap_append] at htokens
        have hmem : Except.error (Stop.error (TokenError.lexeme (.malformed found position))) ∈
            earlier.map Except.ok := by
          rw [← htokens]
          exact List.mem_append_right _ List.mem_cons_self
        obtain ⟨t, -, ht⟩ := List.mem_map.mp hmem
        cases ht
  · rw [List.concat_eq_append, ← List.cons_append, ← List.append_assoc] at hitems
    have hmem : item ∈ (Lexicon.standard.pattern.pieces text.toList).filterMap
        Lexicon.standard.item? := by
      rw [(List.append_inj' hitems rfl).1]
      exact List.mem_append_right _ List.mem_cons_self
    obtain ⟨piece, hpiece, hitem⟩ := List.mem_filterMap.mp hmem
    rw [Lexicon.itemPlace_of_item? hitem p hp]
    exact Pattern.isIn_start_of_mem hproper hpiece

/-! ## The places of all failures -/

/-- Only from no deliveries at all comes a source that holds nothing. -/
theorem Source.eq_nil_of_ofDeliveries {deliveries : List Delivery} {fault : Option String}
    (h : ofDeliveries deliveries fault = ended) : deliveries = [] ∧ fault = none := by
  obtain ⟨hpending, rfl⟩ := Source.mk.inj h
  exact ⟨Text.eq_nil_of_splitAfter (List.map_eq_nil_iff.mp hpending), rfl⟩

/-- The bytes of a text, if no read of them fails, are a source of the text. -/
theorem Source.ofDeliveries_toUTF8 (text : String) :
    ofDeliveries (text.toUTF8.data.toList.map .byte) none = ofText text := by
  rw [ofDeliveries_byte, ofBytes_toUTF8]

/-- Whatever is delivered and whichever reads fail, the place of a failure has a line and a column that
are counted from one, unless nothing at all is delivered: the failure is then at the end, and that has
no place in a line. If what is delivered is a text that is not empty, the place is that of one of its
characters, or the one just behind the last of them, beyond which no failure is. -/
theorem place_of_failure {deliveries : List Delivery} {fault : Option String} {failure : Failure}
    {p : Position} (h : (Source.ofDeliveries deliveries fault).Fails failure)
    (hp : failure.position? = some p) :
    (p.FromOne ∨ deliveries = [] ∧ fault = none ∧ p = Position.origin) ∧
      ∀ text : String, text ≠ "" → deliveries = text.toUTF8.data.toList.map .byte → fault = none →
        p.IsIn text.toList ∧ ¬ (Position.pastEnd text.toList).Before p := by
  obtain ⟨item, hreached, hplace⟩ := h.exists_reached hp
  constructor
  · obtain hone | ⟨hended, horigin⟩ := hreached.fromOne hplace
    · exact .inl hone
    · obtain ⟨hnil, hfault⟩ := Source.eq_nil_of_ofDeliveries hended
      exact .inr ⟨hnil, hfault, horigin⟩
  · rintro text htext rfl rfl
    rw [Source.ofDeliveries_toUTF8] at hreached
    have hin := hreached.isIn htext hplace
    exact ⟨hin, hin.not_pastEnd_before⟩

/-- For example where a program breaks off behind a comment in its second line: no token stands
there. -/
theorem place_of_failure_behind_comment :
    let text := "var x =\n  // é"
    let deliveries := text.toUTF8.data.toList.map Delivery.byte
    let failure : Failure := .grammar (.unexpected "EOF" "an expression" ⟨2, 7⟩)
    (Source.ofDeliveries deliveries none).Fails failure ∧ failure.position? = some ⟨2, 7⟩ ∧
      Position.FromOne ⟨2, 7⟩ ∧ Position.IsIn text.toList ⟨2, 7⟩ ∧
        ¬ (Position.pastEnd text.toList).Before ⟨2, 7⟩ := by
  intro text deliveries failure
  have hrun : Program.run (Source.ofText text) true Sink.unlimited =
      .error (.error failure) Sink.unlimited := by cbv
  rw [← Source.ofDeliveries_toUTF8] at hrun
  have hfails : (Source.ofDeliveries deliveries none).Fails failure := .run hrun
  obtain ⟨hone, hin⟩ := place_of_failure hfails rfl
  have horigin : (⟨2, 7⟩ : Position) ≠ Position.origin := by decide
  exact ⟨hfails, rfl, hone.resolve_right fun h => horigin h.2.2, hin text (by decide) rfl rfl⟩

/-- But the end of an empty source is in no line. -/
theorem place_of_empty_source :
    let failure : Failure := .grammar (.unexpected "EOF" "a statement" ⟨0, 0⟩)
    (Source.ofDeliveries [] none).Fails failure ∧ failure.position? = some ⟨0, 0⟩ ∧
      ¬ Position.FromOne ⟨0, 0⟩ := by
  intro failure
  have hrun : Program.run (Source.ofDeliveries [] none) true Sink.unlimited =
      .error (.error failure) Sink.unlimited := by cbv
  exact ⟨.run hrun, rfl, fun h => absurd h.line (by decide)⟩

end ListScript
