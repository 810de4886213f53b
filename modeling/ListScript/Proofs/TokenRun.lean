import ListScript.Proofs.Numerals
import ListScript.Proofs.ReaderRun
import ListScript.Token.Stream

/-!
# The tokens of a text

What an iteration over the tokens of a text gives is known from the pieces of the text.

* `Lexicon.Proper` : the empty text is no symbol;
* `Lexicon.item?` : what comes of a piece, nothing if it is a separator;
* `Lexicon.itemsOf` : what comes of some pieces, and then the end;
* `Reader.significant_of_…` : what moving past separators does at each kind of piece;
* `TokenStream.items_ofText` : an iteration gives just what comes of the text.
-/

namespace ListScript

/-! ## What comes of a piece -/

namespace Lexicon

/-- No symbol is the empty text. -/
def Proper (lexicon : Lexicon) : Prop := "" ∉ lexicon.symbols.map Prod.fst

theorem Proper.pattern {lexicon : Lexicon} (h : lexicon.Proper) : lexicon.pattern.Proper :=
  Pattern.proper_ofSymbols h

theorem Proper.standard : standard.Proper := show "" ∉ _ by decide

/-- What comes of a piece: nothing of a separator, an error of a malformed character, and a token of
any other lexeme, unless it is a numeral out of range. -/
def item? (lexicon : Lexicon) : Piece → Option (Except (Stop TokenError) Token)
  | .lexeme _ (some .blank) _ => none
  | .lexeme text (some .identifier) span => some (.ok (lexicon.wordToken text span))
  | .lexeme text (some .numeral) span => some (numeralToken text span)
  | .lexeme text none span => some (lexicon.symbolToken text span)
  | .malformed text position => some (.error (.error (.lexeme (.malformed text position))))

/-- Where the last lexeme of some pieces ends, `stop` if there is none. -/
def lastStop (stop : Position) : List Piece → Position
  | [] => stop
  | .lexeme _ _ span :: pieces => lastStop span.stop pieces
  | .malformed _ _ :: pieces => lastStop stop pieces

/-- What comes of some pieces after a lexeme that ends at `stop`. -/
def itemsOf (lexicon : Lexicon) (stop : Position) (pieces : List Piece) :
    List (Except (Stop TokenError) Token) :=
  pieces.filterMap lexicon.item? ++ [.ok (Token.endOfText (lastStop stop pieces))]

theorem itemsOf_cons {lexicon : Lexicon} {stop : Position} {text : String}
    {category : Option Category} {span : Span} {item : Except (Stop TokenError) Token}
    {pieces : List Piece} (h : lexicon.item? (.lexeme text category span) = some item) :
    lexicon.itemsOf stop (.lexeme text category span :: pieces) =
      item :: lexicon.itemsOf span.stop pieces := by
  simp only [itemsOf, List.filterMap_cons, h]
  rfl

/-- A reader that has read a lexeme makes of it what comes of the lexeme. -/
theorem item?_of_token {lexicon : Lexicon} {r : Reader} (h : r.category ≠ some .blank) :
    lexicon.item? (.lexeme r.text r.category r.span) = some (lexicon.token r) := by
  unfold token item?
  rcases hc : r.category with _ | _ | _ | _
  · rfl
  · rfl
  · rfl
  · exact absurd hc h

theorem exists_symbol? (lexicon : Lexicon) {symbol : String}
    (h : symbol ∈ lexicon.symbols.map Prod.fst) : ∃ kind, lexicon.symbol? symbol = some kind := by
  rw [← Option.isSome_iff_exists, symbol?, List.lookup_isSome_iff]
  obtain ⟨entry, hentry, rfl⟩ := List.mem_map.mp h
  exact ⟨entry, hentry, beq_self_eq_true _⟩

/-- The lexemes of a text are no cause for a defect. -/
theorem token_ne_defect {lexicon : Lexicon} {r : Reader} {lexeme : Lexeme} {text : List Char}
    {defect : Defect} (hlast : r.last = some lexeme)
    (h : lexicon.pattern.lexeme? text = some lexeme) (hblank : lexeme.category ≠ some .blank) :
    lexicon.token r ≠ .error (.defect defect) := by
  unfold Pattern.lexeme? at h
  have htext : r.text = String.ofList lexeme.text := by rw [Reader.text, hlast]; rfl
  have hcategory : r.category = lexeme.category := by rw [Reader.category, hlast]; rfl
  unfold token
  split at h
  · cases h
    rw [hcategory]
    exact nofun
  · split at h
    · next hfound =>
      cases h
      rw [hcategory]
      change numeralToken r.text r.span ≠ _
      obtain ⟨n, hn⟩ := Numeral.exists_denoted? hfound
      rw [numeralToken, htext, String.toList_ofList, hn]
      dsimp only
      split <;> exact nofun
    · split at h
      · cases h
        exact absurd rfl hblank
      · split at h
        · next symbol hs =>
          cases h
          rw [hcategory]
          change lexicon.symbolToken r.text r.span ≠ _
          have hmem : symbol ∈ lexicon.symbols.map Prod.fst :=
            List.mem_mergeSort.mp (List.mem_of_find?_eq_some hs)
          obtain ⟨kind, hkind⟩ := lexicon.exists_symbol? hmem
          rw [symbolToken, htext, String.ofList_toList, hkind]
          exact nofun
        · cases h

end Lexicon

/-! ## Past separators -/

namespace Reader

variable {r s t : Reader}

theorem significant_of_stop (hmore : more r = .ok false s) : significant r = .ok false s := by
  rw [significant]
  split
  · next heq => cases hmore.symm.trans heq
  · next heq => cases hmore.symm.trans heq; rfl
  · next heq => cases hmore.symm.trans heq

theorem significant_of_more_error {e : LexemeError} (hmore : more r = .error e s) :
    significant r = .error e s := by
  rw [significant]
  split
  · next heq => cases hmore.symm.trans heq; rfl
  · next heq => cases hmore.symm.trans heq
  · next heq => cases hmore.symm.trans heq

theorem significant_of_error {e : LexemeError} (hmore : more r = .ok true s)
    (htake : take s = .error e t) : significant r = .error e t := by
  rw [significant]
  split
  · next heq => cases hmore.symm.trans heq
  · next heq => cases hmore.symm.trans heq
  · next heq =>
    cases hmore.symm.trans heq
    split
    · next heq' => cases htake.symm.trans heq'; rfl
    · next heq' => cases htake.symm.trans heq'

/-- Separators are passed over, any other lexeme is what is looked for. -/
theorem significant_of_ok (hmore : more r = .ok true s) (htake : take s = .ok () t) :
    significant r = if t.category = some .blank then significant t else .ok true t := by
  rw [significant]
  split
  · next heq => cases hmore.symm.trans heq
  · next heq => cases hmore.symm.trans heq
  · next heq =>
    cases hmore.symm.trans heq
    split
    · next heq' => cases htake.symm.trans heq'
    · next heq' => cases htake.symm.trans heq'; rfl

/-- The next line is read on the way. -/
theorem significant_of_more (hmore : more r = .ok true s) (hrest : s.rest ≠ []) :
    significant r = significant s := by
  have hmore' := more_of_rest hrest
  cases htake : take s with
  | ok _ t => rw [significant_of_ok hmore htake, significant_of_ok hmore' htake]
  | error e t => rw [significant_of_error hmore htake, significant_of_error hmore' htake]

end Reader

/-! ## Iterating over the tokens of a text -/

namespace TokenStream

variable {s : TokenStream}

/-- A step depends on the reader only through the next lexeme that is no separator. -/
theorem itemsWithin_congr {r : Reader} {n : Nat} (hended : s.ended = false)
    (h : s.reader.significant = r.significant) :
    s.itemsWithin (n + 1) = ({ s with reader := r } : TokenStream).itemsWithin (n + 1) := by
  have hadv : s.advance = ({ s with reader := r } : TokenStream).advance := by
    simp only [advance, hended, h]
    rfl
  simp only [itemsWithin, next, hended, hadv]
  rfl

theorem next_of_ok {s' : TokenStream} {k : Kind} {t : Token} (hended : s.ended = false)
    (h : s.advance = .ok k s') (ht : s'.current = some t) : s.next = (some (.ok t), s') := by
  simp [next, hended, h, token, ht, Except.mapError]

theorem next_of_error {s' : TokenStream} {stop : Stop TokenError} (hended : s.ended = false)
    (h : s.advance = .error stop s') : s.next = (some (.error stop), s') := by
  simp [next, hended, h]

theorem itemsWithin_of_ok {s' : TokenStream} {k : Kind} {t : Token} {n : Nat}
    (hended : s.ended = false) (h : s.advance = .ok k s') (ht : s'.current = some t) :
    s.itemsWithin (n + 1) = .ok t :: s'.itemsWithin n := by
  simp only [itemsWithin, next_of_ok hended h ht]

theorem itemsWithin_of_error {s' : TokenStream} {e : TokenError} {n : Nat}
    (hended : s.ended = false) (h : s.advance = .error (.error e) s') :
    s.itemsWithin (n + 1) = .error (.error e) :: s'.itemsWithin n := by
  simp only [itemsWithin, next_of_error hended h]

theorem itemsWithin_of_ended {n : Nat} (h : s.ended = true) : s.itemsWithin n = [] := by
  cases n with
  | zero => rfl
  | succ n => simp [itemsWithin, next, h]

/-- An iteration from a reader on gives what comes of the pieces that are left for it. -/
theorem itemsWithin_of_finds {pieces : List Piece} {r : Reader} (h : r.Finds pieces)
    (s : TokenStream) (hreader : s.reader = r) (hpattern : r.pattern = s.lexicon.pattern)
    (hended : s.ended = false) (n : Nat) (hn : pieces.length < n) :
    s.itemsWithin n = s.lexicon.itemsOf r.span.stop pieces := by
  obtain ⟨n, rfl⟩ : ∃ m, n = m + 1 := ⟨n - 1, by omega⟩
  induction h generalizing s n with
  | @stop r hrest hsource =>
    have hadv : s.advance = .ok .endOfText { s with
        reader := r, ended := true, current := some (Token.endOfText r.span.stop) } := by
      simp only [advance, hended, hreader, Reader.significant_of_stop
        (Reader.more_of_end hrest hsource)]
      rfl
    rw [itemsWithin_of_ok hended hadv rfl, itemsWithin_of_ended rfl]
    rfl
  | @line r line lines pieces hrest hsource hne _ ih =>
    rw [itemsWithin_congr hended (r := r.onLine line lines) (by
      rw [hreader]
      exact Reader.significant_of_more (Reader.more_of_line hrest hsource) hne)]
    exact ih { s with reader := r.onLine line lines } rfl hpattern hended n hn
  | @lexeme r lexeme rest pieces hline hne hfound _ ih =>
    have hrest : r.rest ≠ [] := by
      rw [hline]
      exact List.append_ne_nil_of_left_ne_nil hne _
    have hsignificant := Reader.significant_of_ok (Reader.more_of_rest hrest)
      (Reader.take_of_lexeme hline hfound)
    rw [List.length_cons] at hn
    by_cases hblank : (r.past lexeme rest).category = some .blank
    · rw [itemsWithin_congr hended (r := r.past lexeme rest) (by
        rw [hreader, hsignificant, if_pos hblank])]
      rw [ih { s with reader := r.past lexeme rest } rfl hpattern hended n (by omega)]
      have hcategory : lexeme.category = some .blank := hblank
      simp only [Lexicon.itemsOf, List.filterMap_cons, Piece.ofLexeme, hcategory, Lexicon.item?]
      rfl
    · have hitem : s.lexicon.item? (.ofLexeme lexeme r.position) =
          some (s.lexicon.token (r.past lexeme rest)) := Lexicon.item?_of_token hblank
      rw [if_neg hblank] at hsignificant
      obtain ⟨n, rfl⟩ : ∃ m, n = m + 1 := ⟨n - 1, by omega⟩
      cases htoken : s.lexicon.token (r.past lexeme rest) with
      | ok t =>
        have hadv : s.advance = .ok t.kind
            { s with reader := r.past lexeme rest, current := some t } := by
          simp only [advance, hended, hreader, hsignificant, htoken]
          rfl
        rw [htoken] at hitem
        rw [itemsWithin_of_ok hended hadv rfl,
          ih { s with reader := r.past lexeme rest, current := some t } rfl hpattern hended n
            (by omega)]
        exact (Lexicon.itemsOf_cons hitem).symm
      | error stop =>
        rw [htoken] at hitem
        cases stop with
        | defect defect =>
          rw [hpattern] at hfound
          exact absurd htoken (Lexicon.token_ne_defect rfl hfound hblank)
        | error e =>
          have hadv : s.advance = .error (.error e)
              { s with reader := r.past lexeme rest, current := none } := by
            simp only [advance, hended, hreader, hsignificant, htoken]
            rfl
          rw [itemsWithin_of_error hended hadv,
            ih { s with reader := r.past lexeme rest, current := none } rfl hpattern hended n
              (by omega)]
          exact (Lexicon.itemsOf_cons hitem).symm
  | @malformed r c rest pieces hline hnone _ ih =>
    have hrest : r.rest ≠ [] := by
      rw [hline]
      exact List.cons_ne_nil _ _
    have hsignificant := Reader.significant_of_error (Reader.more_of_rest hrest)
      (Reader.take_of_none hline hnone)
    have hadv : s.advance = .error (.error (.lexeme (.malformed (String.singleton c) r.position)))
        { s with reader := r.pastChar rest, current := none } := by
      simp only [advance, hended, hreader, hsignificant]
      rfl
    rw [List.length_cons] at hn
    obtain ⟨n, rfl⟩ : ∃ m, n = m + 1 := ⟨n - 1, by omega⟩
    rw [itemsWithin_of_error hended hadv,
      ih { s with reader := r.pastChar rest, current := none } rfl hpattern hended n (by omega)]
    rfl

/-- An iteration over the tokens of a text gives what comes of its pieces. -/
theorem items_ofText {lexicon : Lexicon} (hp : lexicon.Proper) (text : String) :
    (ofSource lexicon (Source.ofText text)).items =
      lexicon.itemsOf Position.origin (lexicon.pattern.pieces text.toList) := by
  have hsize : (ofSource lexicon (Source.ofText text)).reader.size = text.toList.length := by
    change 0 + Source.size (Source.ofText text) = _
    rw [Nat.zero_add, Source.size, Source.ofText, Source.ofChars, List.flatMap_map]
    change (List.flatMap id _).length = _
    rw [List.flatMap_id, Text.flatten_splitAfter]
  refine itemsWithin_of_finds (Reader.finds_ofText hp.pattern text) _ rfl rfl rfl _ ?_
  rw [hsize]
  exact Nat.lt_succ_of_le (Pattern.length_pieces_le hp.pattern _)

end TokenStream

end ListScript
