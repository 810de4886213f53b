import ListScript.Proofs.NestedCalls
import ListScript.Proofs.NoPanic
import ListScript.Proofs.ParserSoundness

/-!
# Reading comes to an end

A step through the tokens uses up characters or ends the stream, also when it fails. The calls of the
parsers go down with the tokens that are left: no form of expressions or statements begins with the
end of the text, so the parser that is called inside itself stands behind a token that has been read.

* `Source.size_ofBytes_le` : a source hands over no more characters than it has bytes;
* `TokenStream.ends_advance_left`, `TokenStream.Fitting.exists_iterates` : a step leaves less, and an
  iteration ends;
* `Grammar.Routine.rank`, `Grammar.Nearer x y` : from `x` to `y` tokens are read, or `y` is of lower
  rank. So it is with a call (`Grammar.Calls.nearer`) and with calls inside it
  (`Grammar.Nested.nearer`), for parsers that stand where their form begins (`Grammar.Entry.Fits`);
* `Grammar.Entry.depth`, `Grammar.Nested.add_depth_le` : how deep calls can nest;
* `reading_ends` : all of it for the bytes of a source.
-/

namespace ListScript

/-! ## The characters of some bytes -/

namespace Source

theorem length_le_length_encode (text : List Char) : text.length ≤ (encode text).length := by
  induction text with
  | nil => exact Nat.le_refl 0
  | cons c text ih =>
    have hc : 0 < (String.utf8EncodeChar c).length := by
      rw [String.length_utf8EncodeChar]
      exact c.utf8Size_pos
    simp only [encode, List.flatMap_cons, List.length_append, List.length_cons] at ih ⊢
    omega

theorem length_le_of_decode {bytes : List UInt8} {text : List Char} (h : decode bytes = some text) :
    text.length ≤ bytes.length := by
  rw [← encode_of_decode h]
  exact length_le_length_encode text

/-- A read hands over no more characters than it has bytes. -/
theorem length_readingOf_le (fault : Option String) (part : List UInt8) :
    (readingOf fault part).text.length ≤ part.length := by
  have hline : (readingOfLine part).text.length ≤ part.length := by
    unfold readingOfLine
    split
    · next text htext => exact length_le_of_decode htext
    · exact Nat.zero_le _
  unfold readingOf
  split
  · exact hline
  · split
    · exact hline
    · cases htext : decode part with
      | some text =>
        simp only [readingOfBreak, htext, Reading.text, Option.getD_some]
        exact length_le_of_decode htext
      | none =>
        simp only [readingOfBreak, htext, Reading.text, Option.getD_none]
        exact Nat.zero_le _

/-- A source hands over no more characters than it has bytes. -/
theorem size_ofBytes_le (bytes : List UInt8) (fault : Option String) :
    (ofBytes bytes fault).size ≤ bytes.length := by
  have hparts : ∀ parts : List (List UInt8),
      ((parts.map (readingOf fault)).flatMap Reading.text).length ≤ parts.flatten.length := by
    intro parts
    induction parts with
    | nil => exact Nat.le_refl 0
    | cons part parts ih =>
      have hpart := length_readingOf_le fault part
      simp only [List.map_cons, List.flatMap_cons, List.length_append, List.flatten_cons]
      omega
  have h := hparts (Text.splitAfter isLineFeed bytes)
  rw [Text.flatten_splitAfter] at h
  exact h

end Source

/-! ## Stepping through the tokens -/

namespace Reader

variable {r s t : Reader}

/-- Past a separator it goes on with what is left. -/
theorem significant_of_blank (hmore : more r = .ok true s) (htake : take s = .ok () t)
    (hblank : t.category = some .blank) : significant r = significant t := by
  rw [significant_of_ok hmore htake, if_pos hblank]

/-- A separator that has been passed over is what the line began with. -/
theorem rest_of_take_of_blank (htake : take s = .ok () t) (hblank : t.category = some .blank) :
    s.rest = t.text.toList ++ t.rest ∧ t.text ≠ "" := by
  unfold take at htake
  split at htake
  · next lexeme hlexeme =>
    cases htake
    have hpos := Pattern.length_pos_of_lexeme? hlexeme hblank
    obtain ⟨rest, hrest⟩ := Pattern.prefix_of_lexeme? hlexeme
    refine ⟨by simp [text, ← hrest], fun hempty => ?_⟩
    have htext : lexeme.text = [] := by simpa [text] using congrArg String.toList hempty
    simp [htext] at hpos
  · split at htake <;> cases htake

/-- A failure after which reading can go on has used up a character. -/
theorem size_of_significant_error (r : Reader) : Ends (fun _ _ => True)
    (fun e t => e.isFatal = false → t.size < r.size) (significant r) := by
  fun_induction significant r with
  | case1 r e s hm =>
    refine .error fun hfatal => ?_
    unfold more at hm
    split at hm
    · cases hm
    · split at hm
      · cases hm
      · split at hm
        · cases hm
        · cases hm
        · cases hm
          cases hfatal
  | case2 => exact .ok trivial
  | case3 r s hm e t ht =>
    refine .error fun hfatal => Nat.lt_of_lt_of_le ?_ (size_of_more hm)
    unfold take at ht
    split at ht
    · cases ht
    · split at ht
      · cases ht
        cases hfatal
      · next c rest hrest =>
        cases ht
        simp only [size, hrest, List.length_cons]
        omega
  | case4 r s hm t ht hb hlt ih =>
    exact ih.mono (fun _ _ h => h) fun e u h hfatal => Nat.lt_trans (h hfatal) hlt
  | case5 => exact .ok trivial

end Reader

namespace TokenStream

variable {lexicon : Lexicon} {s : TokenStream}

/-- Every step leaves less, unless the empty text is a symbol. -/
theorem ends_advance_left (hp : s.reader.pattern.Proper) (hended : s.ended = false) :
    Ends (fun _ u => u.left < s.left) (fun _ u => u.left < s.left) s.advance := by
  have hless : ∀ u : TokenStream, u.ended = true ∨ u.reader.size < s.reader.size →
      u.left < s.left := by
    intro u hu
    rw [left_of_not_ended hended]
    cases hu' : u.ended with
    | true =>
      rw [left_of_ended hu']
      exact Nat.succ_pos _
    | false =>
      rw [left_of_not_ended hu']
      exact Nat.succ_lt_succ (hu.resolve_left (by rw [hu']; exact Bool.false_ne_true))
  have hfound := Reader.size_of_significant hp
  have hfail := Reader.size_of_significant_error s.reader
  rw [advance_eq_stepOn hended]
  cases hr : s.reader.significant with
  | ok found r =>
    cases found with
    | false => exact .ok (hless _ (.inl rfl))
    | true =>
      have hsize : r.size < s.reader.size := hfound.of_ok hr
      simp only [stepOn]
      cases s.lexicon.token r with
      | ok t => exact .ok (hless _ (.inr hsize))
      | error stop => exact .error (hless _ (.inr hsize))
  | error e r =>
    simp only [stepOn]
    by_cases hfatal : e.isFatal = true
    · rw [if_pos hfatal]
      exact .error (hless _ (.inl rfl))
    · rw [if_neg hfatal]
      exact .error (hless _ (.inr (hfail.of_error hr (by simpa using hfatal))))

/-- An iteration over the tokens of a source ends, with no more items than characters are left and one
more for the end. None of them is a defect. -/
theorem Fitting.exists_iterates (hs : s.Fitting lexicon) (hlexicon : lexicon.Proper) :
    ∃ items u, s.Iterates items u ∧ items.length ≤ s.left ∧
      ∀ defect, .error (.defect defect) ∉ items := by
  induction hn : s.left using Nat.strongRecOn generalizing s with
  | ind n ih =>
    subst hn
    cases hended : s.ended with
    | true => exact ⟨[], s, .done (next_of_ended hended), Nat.zero_le _, fun _ => List.not_mem_nil⟩
    | false =>
      have hp : s.reader.pattern.Proper := by
        rw [hs.pattern_eq]
        exact hlexicon.pattern
      have hleft := ends_advance_left hp hended
      have hfitting := hs.ends_advance
      cases hadv : s.advance with
      | ok k s' =>
        have hlt := hleft.of_ok hadv
        obtain ⟨t, ht, -⟩ := current_of_advance hadv
        obtain ⟨items, u, hitems, hlength, hdefect⟩ := ih _ hlt (hfitting.of_ok hadv) rfl
        refine ⟨_, u, .step (next_of_ok hended hadv ht) hitems, ?_, fun defect hmem => ?_⟩
        · rw [List.length_cons]
          omega
        · obtain hmem | hmem := List.mem_cons.mp hmem
          · cases hmem
          · exact hdefect defect hmem
      | error stop s' =>
        have hlt := hleft.of_error hadv
        obtain ⟨hs', e, rfl⟩ := hfitting.of_error hadv
        obtain ⟨items, u, hitems, hlength, hdefect⟩ := ih _ hlt hs' rfl
        refine ⟨_, u, .step (next_of_error hended hadv) hitems, ?_, fun defect hmem => ?_⟩
        · rw [List.length_cons]
          omega
        · obtain hmem | hmem := List.mem_cons.mp hmem
          · cases hmem
          · exact hdefect defect hmem

end TokenStream

/-! ## Calls inside calls -/

namespace Grammar
open ListScript.Parser

/-- How many parsers can call one another in a row, from this one on, before a token is read. -/
def Routine.rank : Routine → Nat
  | .opening _ | .continuation _ _ _ | .stmtOf _ => 0
  | .proceed _ _ | .stmt => 1
  | .expr _ | .block => 2
  | .exprs => 3

theorem Routine.rank_le_three (r : Routine) : r.rank ≤ 3 := by
  cases r <;> simp [rank]

theorem Routine.rank_eq_of_same {r r' : Routine} (h : r.Same r') : r.rank = r'.rank := by
  cases r <;> cases r' <;> first | rfl | exact h.elim

/-- What the token at hand must be for a parser that has been called. -/
def Routine.Begins (t : Token) : Routine → Prop
  | .opening form => Rules.standard.opening t.kind = some form
  | .continuation form _ power => Rules.standard.continuation t.kind = some (power, form)
  | .stmtOf form => Rules.standard.form t.kind = some form
  | _ => True

/-- The parser is called at a place of a stream of the language where its form begins. -/
structure Entry.Fits (x : Entry) : Prop where
  standard : x.stream.Standard
  begins : ∀ t, x.stream.current = some t → x.routine.Begins t

/-- Between the two parsers tokens are read, or the second one is of lower rank. -/
def Nearer (x y : Entry) : Prop :=
  ∃ ts, Reads ts x.stream y.stream ∧ (ts = [] → y.routine.rank < x.routine.rank)

theorem Nearer.trans {x y z : Entry} (h : Nearer x y) (h' : Nearer y z) : Nearer x z := by
  obtain ⟨ts, hts, hrank⟩ := h
  obtain ⟨ts', hts', hrank'⟩ := h'
  refine ⟨ts ++ ts', hts.append hts', fun hnil => ?_⟩
  obtain ⟨rfl, rfl⟩ := List.append_eq_nil_iff.mp hnil
  exact Nat.lt_trans (hrank' rfl) (hrank rfl)

section Calls

variable {m n : Nat} {s u : TokenStream} {t : Token} {x y z : Entry}

/-- A parser that is not held to a form, called after some tokens. -/
theorem Entry.Fits.nearer_of_reads {r r' : Routine} (hs : (Entry.mk r s).Fits) {ts : List Token}
    (h : Reads ts s u) (hbegins : ∀ t, r'.Begins t) (hrank : ts = [] → r'.rank < r.rank) :
    (Entry.mk r' u).Fits ∧ Nearer ⟨r, s⟩ ⟨r', u⟩ :=
  ⟨⟨h.standard hs.standard, fun t _ => hbegins t⟩, ts, h, hrank⟩

/-- A parser that is called where it stands. -/
theorem Entry.Fits.nearer_here {r r' : Routine} (hs : (Entry.mk r s).Fits)
    (ht : s.current = some t) (hbegins : r'.Begins t) (hrank : r'.rank < r.rank) :
    (Entry.mk r' s).Fits ∧ Nearer ⟨r, s⟩ ⟨r', s⟩ := by
  refine ⟨⟨hs.standard, fun t' ht' => ?_⟩, [], .nil s, fun _ => hrank⟩
  cases ht.symm.trans ht'
  exact hbegins

/-- An operator is read with its right operand. -/
theorem exists_reads_of_continuation {form : Continuation} {left next : Expr} {power : Power}
    (hs : s.Standard) (ht : s.current = some t)
    (hcont : Rules.standard.continuation t.kind = some (power, form))
    (h : continuation .standard m form left power s = .ok next u) :
    ∃ ts, Reads (t :: ts) s u := by
  have hend := Rules.ne_endOfText_of_continuation hcont
  cases m with
  | zero => cases h
  | succ m =>
    cases form with
    | binary =>
      obtain ⟨t', v, right, op, hadv, hexpr, -⟩ := continuation_binary_eq_ok.mp h
      cases (advance_eq_ok.mp hadv).1.symm.trans ht
      have hreads := reads_of_advance hs hadv hend
      obtain ⟨d, -, hd, -⟩ := (exprSound m).expr (hreads.standard hs) hexpr
      exact ⟨_, hreads.append hd⟩
    | cons =>
      obtain ⟨t', v, right, hexpect, hexpr, -⟩ := continuation_cons_eq_ok.mp h
      have hadv := (expect_eq_ok.mp hexpect).2
      cases (advance_eq_ok.mp hadv).1.symm.trans ht
      have hreads := reads_of_advance hs hadv hend
      obtain ⟨d, -, hd, -⟩ := (exprSound m).expr (hreads.standard hs) hexpr
      exact ⟨_, hreads.append hd⟩

/-- A parser that is called stands where its form begins, and tokens are read before it or it is of
lower rank. -/
theorem Calls.nearer (h : Calls .standard x y) (hx : x.Fits) : y.Fits ∧ Nearer x y := by
  have hs := hx.standard
  cases h with
  | expr_opening current begins => exact hx.nearer_here current begins (Nat.succ_pos 1)
  | expr_proceed current begins opening =>
    obtain ⟨d, -, hd⟩ := (exprSound _).opening hs opening
    exact hx.nearer_of_reads hd (fun _ => trivial) fun _ => Nat.lt_succ_self 1
  | proceed_continuation current goesOn tighter =>
    exact hx.nearer_here current goesOn (Nat.succ_pos 0)
  | proceed_proceed current goesOn tighter continuation =>
    obtain ⟨ts, hts⟩ := exists_reads_of_continuation hs current goesOn continuation
    exact hx.nearer_of_reads hts (fun _ => trivial) nofun
  | unary_expr operator =>
    have ht := (advance_eq_ok.mp operator).1
    have hend := Rules.ne_endOfText_of_opening (hx.begins _ ht)
    exact hx.nearer_of_reads (reads_of_advance hs operator hend) (fun _ => trivial) nofun
  | group_expr paren =>
    obtain ⟨t, -, ht⟩ := reads_of_expect hs (by decide) paren
    exact hx.nearer_of_reads ht (fun _ => trivial) nofun
  | list_exprs bracket =>
    obtain ⟨t, -, ht⟩ := reads_of_expect hs (by decide) bracket
    exact hx.nearer_of_reads ht (fun _ => trivial) nofun
  | binary_expr operator =>
    have ht := (advance_eq_ok.mp operator).1
    have hend := Rules.ne_endOfText_of_continuation (hx.begins _ ht)
    exact hx.nearer_of_reads (reads_of_advance hs operator hend) (fun _ => trivial) nofun
  | cons_expr operator =>
    obtain ⟨t, -, ht⟩ := reads_of_expect hs (by decide) operator
    exact hx.nearer_of_reads ht (fun _ => trivial) nofun
  | exprs_expr => exact hx.nearer_of_reads (.nil _) (fun _ => trivial) fun _ => by decide
  | exprs_exprs expr current comma step =>
    obtain ⟨d, -, hd, -⟩ := (exprSound _).expr hs expr
    have ht := reads_of_advance (hd.standard hs) step (by rw [comma]; decide)
    exact hx.nearer_of_reads (hd.append ht) (fun _ => trivial) (by simp)
  | stmt_stmtOf current begins => exact hx.nearer_here current begins (Nat.succ_pos 0)
  | declare_expr word name assign =>
    obtain ⟨_, -, h₁⟩ := reads_of_expect hs (by decide) word
    obtain ⟨_, -, h₂⟩ := reads_of_ident (h₁.standard hs) name
    obtain ⟨_, -, h₃⟩ := reads_of_expect (h₂.standard (h₁.standard hs)) (by decide) assign
    exact hx.nearer_of_reads (h₁.append (h₂.append h₃)) (fun _ => trivial) nofun
  | assign_expr name assign =>
    obtain ⟨_, -, h₁⟩ := reads_of_ident hs name
    obtain ⟨_, -, h₂⟩ := reads_of_expect (h₁.standard hs) (by decide) assign
    exact hx.nearer_of_reads (h₁.append h₂) (fun _ => trivial) nofun
  | print_expr word =>
    obtain ⟨_, -, h₁⟩ := reads_of_expect hs (by decide) word
    exact hx.nearer_of_reads h₁ (fun _ => trivial) nofun
  | forEach_expr word name colon =>
    obtain ⟨_, -, h₁⟩ := reads_of_expect hs (by decide) word
    obtain ⟨_, -, h₂⟩ := reads_of_ident (h₁.standard hs) name
    obtain ⟨_, -, h₃⟩ := reads_of_expect (h₂.standard (h₁.standard hs)) (by decide) colon
    exact hx.nearer_of_reads (h₁.append (h₂.append h₃)) (fun _ => trivial) nofun
  | forEach_block word name colon expr brace =>
    obtain ⟨_, -, h₁⟩ := reads_of_expect hs (by decide) word
    obtain ⟨_, -, h₂⟩ := reads_of_ident (h₁.standard hs) name
    have hs₂ := h₂.standard (h₁.standard hs)
    obtain ⟨_, -, h₃⟩ := reads_of_expect hs₂ (by decide) colon
    obtain ⟨d, -, h₄, -⟩ := (exprSound _).expr (h₃.standard hs₂) expr
    obtain ⟨_, -, h₅⟩ := reads_of_expect (h₄.standard (h₃.standard hs₂)) (by decide) brace
    exact hx.nearer_of_reads (h₁.append (h₂.append (h₃.append (h₄.append h₅))))
      (fun _ => trivial) nofun
  | block_stmt => exact hx.nearer_of_reads (.nil _) (fun _ => trivial) fun _ => by decide
  | block_block stmt current semicolon step next goesOn =>
    obtain ⟨d, -, hd⟩ := (stmtSound _).stmt hs stmt
    have ht := reads_of_advance (hd.standard hs) step (by rw [semicolon]; decide)
    exact hx.nearer_of_reads (hd.append ht) (fun _ => trivial) (by simp)

theorem Nested.fits (h : Nested .standard n x y) (hx : x.Fits) : y.Fits := by
  induction h with
  | here => exact hx
  | deeper call _ ih => exact ih (call.nearer hx).1

/-- So it is with a parser that is called inside another one. -/
theorem Nested.nearer (h : Nested .standard (n + 1) x y) (hx : x.Fits) : Nearer x y := by
  induction n generalizing x with
  | zero =>
    obtain _ | ⟨call, rest⟩ := h
    cases rest
    exact (call.nearer hx).2
  | succ n ih =>
    obtain _ | ⟨call, rest⟩ := h
    obtain ⟨hfits, hnearer⟩ := call.nearer hx
    exact hnearer.trans (ih rest hfits)

/-- Inside a parser the same one is called only after a token that does not end the text. -/
theorem Nested.reads_of_same (h : Nested .standard (n + 1) x y) (hx : x.Fits)
    (hsame : x.routine.Same y.routine) :
    ∃ ts, Reads ts x.stream y.stream ∧ ts ≠ [] ∧ ∀ t ∈ ts, t.kind ≠ .endOfText := by
  obtain ⟨ts, hts, hrank⟩ := h.nearer hx
  have hend := hts.endOfText_not_mem hx.standard
  refine ⟨ts, hts, fun hnil => ?_, fun t ht hk => hend (hk ▸ List.mem_map_of_mem ht)⟩
  exact Nat.ne_of_lt (hrank hnil) (Routine.rank_eq_of_same hsame).symm

/-- How deep calls can nest from here on. A token is good for four of them. -/
def Entry.depth (x : Entry) : Nat := 4 * x.stream.left + x.routine.rank

theorem Nearer.depth_lt (h : Nearer x y) (hs : x.stream.Standard) : y.depth < x.depth := by
  obtain ⟨ts, hts, hrank⟩ := h
  have hleft := hts.left_le hs
  have hle := y.routine.rank_le_three
  unfold Entry.depth
  cases ts with
  | nil =>
    have hlt := hrank rfl
    omega
  | cons t ts =>
    rw [List.length_cons] at hleft
    omega

theorem Nested.add_depth_le (h : Nested .standard n x y) (hx : x.Fits) :
    n + y.depth ≤ x.depth := by
  induction h with
  | here => exact Nat.le_of_eq (Nat.zero_add _)
  | deeper call _ ih =>
    obtain ⟨hfits, hnearer⟩ := call.nearer hx
    have hlt := hnearer.depth_lt hx.standard
    have hle := ih hfits
    omega

end Calls

end Grammar

/-! ## A source of bytes -/

section Bytes

variable {bytes : List UInt8} {fault : Option String} {start : TokenStream}

theorem TokenStream.left_ofSource_le (lexicon : Lexicon) (bytes : List UInt8)
    (fault : Option String) :
    (ofSource lexicon (Source.ofBytes bytes fault)).left ≤ bytes.length + 1 := by
  have hsize : (ofSource lexicon (Source.ofBytes bytes fault)).reader.size =
      (Source.ofBytes bytes fault).size := Nat.zero_add _
  rw [left_of_not_ended rfl, hsize]
  exact Nat.succ_le_succ (Source.size_ofBytes_le bytes fault)

/-- A program begins with a block, at the first token. -/
theorem Parser.Begins.fits
    (h : Begins (TokenStream.ofSource Lexicon.standard (Source.ofBytes bytes fault)) start) :
    (Grammar.Entry.mk .block start).Fits ∧ start.left ≤ bytes.length := by
  have hfirst := TokenStream.standard_ofSource (Source.ofBytes bytes fault)
  obtain ⟨⟨t, ht⟩, -⟩ | ⟨-, k, hadv⟩ := h
  · cases ht
  · have hlt := hfirst.left_lt_of_advance hadv
    have hle := TokenStream.left_ofSource_le Lexicon.standard bytes fault
    exact ⟨⟨hfirst.of_advance hadv, fun _ _ => trivial⟩, by omega⟩

/-- Bounds beyond the depth of all calls cut no program off. -/
theorem Parser.not_endless_programWithin {n : Nat} (hn : 4 * bytes.length + 2 < n) :
    ¬ Endless (programWithin .standard n
      (TokenStream.ofSource Lexicon.standard (Source.ofBytes bytes fault))) := by
  intro h
  have hfitting := TokenStream.fitting_ofSource Lexicon.standard
    (Source.delivers_ofBytes bytes fault)
  obtain hstart | ⟨_, start, hstart, h⟩ := h.of_bind
  · exact (returns_start hfitting).returns.not_endless hstart
  · obtain ⟨hfits, hleft⟩ := Begins.fits (start_eq_ok.mp hstart)
    have hblock : Endless (Grammar.block .standard n start) :=
      Prompt.of_bind_left (fun _ => .bind prompt_expect.discard fun _ => .pure _) h
    obtain ⟨y, hy⟩ := (Grammar.cutOff_iff (x := ⟨.block, start⟩)).mp hblock
    have hdepth := hy.add_depth_le hfits
    unfold Grammar.Entry.depth at hdepth
    simp only [Grammar.Routine.rank] at hdepth
    omega

end Bytes

/-- Reading a source comes to an end, whatever bytes it has and wherever reading them fails.

What is passed over between tokens is used up, a character at least with every separator. With any
lexicon in which the empty text is no symbol, an iteration gives no more items than there are bytes and
one more. In the language a program is read, or there is an error, and it is the same with all bounds
that are larger than calls of parsers can nest. The calls that count are all there are: a bound cuts
a block off just if calls nest as deeply. Inside any parser of a program the same parser is called, and
an expression goes on once more, only behind a token that has been read since, and that does not end
the text. A step over the end of the text stays there. -/
theorem reading_ends {lexicon : Lexicon} (hlexicon : lexicon.Proper) (bytes : List UInt8)
    (fault : Option String) :
    let source := Source.ofBytes bytes fault
    let tokens := TokenStream.ofSource lexicon source
    let first := TokenStream.ofSource Lexicon.standard source
    (∀ r s t, Reader.more r = .ok true s → Reader.take s = .ok () t →
        t.category = some .blank → Reader.significant r = Reader.significant t ∧
          s.rest = t.text.toList ++ t.rest ∧ t.text ≠ "" ∧ t.size < r.size) ∧
      (∃ items s, tokens.Iterates items s ∧ items.length ≤ bytes.length + 1 ∧
        tokens.items = items) ∧
      Returns (parse first) ∧
      (∀ n, 4 * bytes.length + 2 < n → Parser.programWithin .standard n first = parse first) ∧
      (∀ start, Parser.Begins first start →
        (∀ n, Endless (Grammar.block .standard n start) ↔
          ∃ x, Grammar.Nested .standard n ⟨.block, start⟩ x) ∧
        (∀ n x, Grammar.Nested .standard n ⟨.block, start⟩ x → n ≤ 4 * bytes.length + 2) ∧
        ∀ m n x y, Grammar.Nested .standard m ⟨.block, start⟩ x →
          Grammar.Nested .standard (n + 1) x y → x.routine.Same y.routine →
          ∃ ts, Reads ts x.stream y.stream ∧ ts ≠ [] ∧ ∀ t ∈ ts, t.kind ≠ .endOfText) ∧
      ∀ s t, s.Standard → s.current = some t → t.kind = .endOfText → Parser.advance s = .ok t s := by
  intro source tokens first
  have hdelivers : source.Delivers := Source.delivers_ofBytes bytes fault
  have hfirst : first.Fitting Lexicon.standard := TokenStream.fitting_ofSource _ hdelivers
  refine ⟨fun r s t hmore htake hblank => ?_, ?_, ?_, fun n hn => ?_, fun start hstart => ?_,
    fun s t hs ht hk => ?_⟩
  · obtain ⟨hrest, hne⟩ := Reader.rest_of_take_of_blank htake hblank
    exact ⟨Reader.significant_of_blank hmore htake hblank, hrest, hne,
      Nat.lt_of_lt_of_le (Reader.size_of_take htake hblank) (Reader.size_of_more hmore)⟩
  · have htokens : tokens.Fitting lexicon := TokenStream.fitting_ofSource _ hdelivers
    obtain ⟨items, s, hitems, hlength, hdefect⟩ := htokens.exists_iterates hlexicon
    exact ⟨items, s, hitems,
      Nat.le_trans hlength (TokenStream.left_ofSource_le lexicon bytes fault),
      hitems.itemsWithin_eq hdefect hlength⟩
  · exact (Parser.returns_parse hfirst).resolve_right fun h => Lexicon.not_nests rfl h.1
  · exact (Parser.endless_or_eq_parse hfirst n).resolve_left (Parser.not_endless_programWithin hn)
  · obtain ⟨hfits, hleft⟩ := hstart.fits
    refine ⟨fun n => Grammar.cutOff_iff (x := ⟨.block, start⟩), fun n x hx => ?_,
      fun m n x y hx hy hsame => hy.reads_of_same (hx.fits hfits) hsame⟩
    have hdepth := hx.add_depth_le hfits
    unfold Grammar.Entry.depth at hdepth
    simp only [Grammar.Routine.rank] at hdepth
    omega
  · exact Parser.advance_eq_ok.mpr ⟨ht, .inl ⟨(hs.ended_iff t ht).mpr hk, rfl⟩⟩

/-- A lexicon with a symbol of three bytes and a word that ends the text, and a source that breaks off
in a character. -/
theorem reading_ends_arrow :
    let lexicon : Lexicon := ⟨[("stop", .endOfText)], [("→", .minus), ("=", .cons)]⟩
    let source := Source.ofBytes [0x31, 0xe2, 0x86, 0x92, 0x21, 0x0a, 0xe2, 0x86] (some "gone")
    let tokens := TokenStream.ofSource lexicon source
    let first := TokenStream.ofSource Lexicon.standard source
    lexicon.Proper ∧
      (∃ items s, tokens.Iterates items s ∧ items.length ≤ 9 ∧ tokens.items = items) ∧
      Parser.programWithin .standard 35 first = parse first := by
  intro lexicon source tokens first
  have hlexicon : lexicon.Proper := show "" ∉ _ by decide
  obtain ⟨-, hitems, -, hbound, -⟩ := reading_ends hlexicon
    [0x31, 0xe2, 0x86, 0x92, 0x21, 0x0a, 0xe2, 0x86] (some "gone")
  exact ⟨hlexicon, hitems, hbound 35 (by decide)⟩

end ListScript
