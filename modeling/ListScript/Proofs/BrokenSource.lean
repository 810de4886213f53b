import ListScript.Proofs.StreamSteps
import ListScript.Proofs.TokenRun

/-!
# A source that cannot be read to its end

The lines before the first one that cannot be read give their tokens and errors, and then the failure
to read is the last thing that an iteration gives.

* `Source.FailsAt`, `Source.BreaksOff` : the bytes from the first line on that cannot be read, and the
  text before them (`Source.exists_breaksOff`, `Source.BreaksOff.ofBytes_eq`);
* `Reader.before`, `TokenStream.before` : a reader and a stream that go on with another source;
* `TokenStream.Iterates` : everything that an iteration gives, to the end;
* `TokenStream.iterates_before` : what an iteration gives that goes on with a failing source
  (`Source.BreaksOff.iterates`);
* `BrokenReading`, `exists_brokenReading` : the iteration over the bytes of a source that breaks off.
-/

namespace ListScript

/-! ## The line that cannot be read -/

namespace Source

/-- The first line of some bytes cannot be read, for the reason `cause`. -/
inductive FailsAt : Option String → List UInt8 → String → Prop
  /-- The source fails at the start of the line or further on, before its end. -/
  | failure {rest : List UInt8} {cause : String} (noFeed : 10 ∉ rest) :
    FailsAt (some cause) rest cause
  /-- The line is no text. -/
  | line {fault : Option String} {body more : List UInt8} (noFeed : 10 ∉ body)
    (noText : ∀ text : String, text.toUTF8.data.toList ≠ body ++ [10]) :
    FailsAt fault (body ++ 10 :: more) notText
  /-- The last line, which lacks its line feed, is no text. -/
  | last {body : List UInt8} (noFeed : 10 ∉ body)
    (noText : ∀ text : String, text.toUTF8.data.toList ≠ body) : FailsAt none body notText

/-- The lines of `good` are the lines before the first one that cannot be read, which is the first
line of `rest`. -/
structure BreaksOff (bytes : List UInt8) (fault : Option String) (good : String)
    (rest : List UInt8) (cause : String) : Prop where
  bytes_eq : bytes = good.toUTF8.data.toList ++ rest
  whole : ∀ c, good.toList.getLast? = some c → c = '\n'
  fails : FailsAt fault rest cause

/-- Bytes that cannot be decoded are not the bytes of a text. -/
theorem decode_eq_none {bytes : List UInt8} :
    decode bytes = none ↔ ∀ text : String, text.toUTF8.data.toList ≠ bytes := by
  constructor
  · rintro h text rfl
    rw [← encode_toList, decode_encode] at h
    cases h
  · intro h
    cases hdecode : decode bytes with
    | none => rfl
    | some text =>
      refine absurd ?_ (h (String.ofList text))
      rw [← encode_toList, String.toList_ofList, encode_of_decode hdecode]

theorem isLineFeed_eq_false {bytes : List UInt8} (h : 10 ∉ bytes) :
    ∀ byte ∈ bytes, isLineFeed byte = false := by
  intro byte hbyte
  apply beq_false_of_ne
  rintro rfl
  exact h hbyte

theorem encode_append (text more : List Char) : encode (text ++ more) = encode text ++ encode more :=
  List.flatMap_append

/-- A text whose bytes end with a line feed ends with one. -/
theorem eq_append_of_encode {text : List Char} {body : List UInt8}
    (h : encode text = body ++ [10]) : ∃ before, text = before ++ ['\n'] := by
  obtain rfl | ⟨before, c, rfl⟩ := List.eq_nil_or_concat' text
  · cases body <;> cases h
  · have hlast : (encode [c]).getLast? = some 10 := by
      have hall := congrArg List.getLast? h
      rw [encode_append, List.getLast?_append, List.getLast?_concat] at hall
      cases hc : (encode [c]).getLast? with
      | some byte => rw [hc] at hall; exact hall
      | none =>
        rw [encode, List.flatMap_singleton, List.getLast?_eq_none_iff] at hc
        exact absurd hc String.utf8EncodeChar_ne_nil
    rw [encode, List.flatMap_singleton] at hlast
    exact ⟨before, by rw [lineFeed_mem_utf8EncodeChar (List.mem_of_getLast? hlast)]⟩

/-- A line that can be read may stand before a source that breaks off. -/
theorem BreaksOff.cons {bytes body rest : List UInt8} {fault : Option String} {text : List Char}
    {good cause : String} (hline : decode (body ++ [10]) = some text)
    (h : BreaksOff bytes fault good rest cause) :
    BreaksOff (body ++ 10 :: bytes) fault (String.ofList text ++ good) rest cause := by
  have hencode := encode_of_decode hline
  refine ⟨?_, ?_, h.fails⟩
  · rw [List.append_cons, h.bytes_eq, ← encode_toList, ← encode_toList, String.toList_append,
      String.toList_ofList, encode_append, hencode, ← List.append_assoc]
  · obtain ⟨before, rfl⟩ := eq_append_of_encode hencode
    intro c hc
    rw [String.toList_append, String.toList_ofList, List.getLast?_append,
      List.getLast?_concat] at hc
    cases hlast : good.toList.getLast? with
    | none => rw [hlast] at hc; cases hc; rfl
    | some c' => rw [hlast] at hc; cases hc; exact h.whole _ hlast

/-- Some line of a source that breaks off is the first one that does not come through. -/
theorem exists_breaksOff {bytes : List UInt8} {fault : Option String}
    (h : fault.isSome ∨ ∃ line ∈ Text.splitAfter isLineFeed bytes,
      ∀ text : String, text.toUTF8.data.toList ≠ line) :
    ∃ good rest cause, BreaksOff bytes fault good rest cause := by
  have hparts := Text.parts_splitAfter isLineFeed bytes
  rw [← Text.flatten_splitAfter isLineFeed bytes]
  generalize Text.splitAfter isLineFeed bytes = parts at hparts h
  have hfeed : ∀ {body : List UInt8}, (∀ byte ∈ body, isLineFeed byte = false) → 10 ∉ body := by
    intro body hbody hmem
    cases hbody 10 hmem
  induction hparts with
  | nil =>
    obtain hfault | ⟨line, hmem, -⟩ := h
    · obtain ⟨cause, rfl⟩ := Option.isSome_iff_exists.mp hfault
      exact ⟨"", [], cause, rfl, nofun, .failure (by simp)⟩
    · cases hmem
  | @last part ne hpart =>
    rw [List.flatten_singleton]
    cases fault with
    | some cause => exact ⟨"", part, cause, rfl, nofun, .failure (hfeed hpart)⟩
    | none =>
      obtain ⟨line, hmem, hline⟩ := h.resolve_left nofun
      obtain rfl := List.mem_singleton.mp hmem
      exact ⟨"", line, notText, rfl, nofun, .last (hfeed hpart) hline⟩
  | @cons body x parts hbody hx _ ih =>
    obtain rfl : x = 10 := by simpa [isLineFeed] using hx
    rw [List.flatten_cons, List.append_assoc]
    cases hdecode : decode (body ++ [10]) with
    | none =>
      exact ⟨"", body ++ 10 :: parts.flatten, notText, rfl, nofun,
        .line (hfeed hbody) (decode_eq_none.mp hdecode)⟩
    | some text =>
      have hlater : fault.isSome ∨ ∃ line ∈ parts, ∀ text : String,
          text.toUTF8.data.toList ≠ line := by
        refine h.imp_right ?_
        rintro ⟨line, hmem, hline⟩
        obtain rfl | hmem := List.mem_cons.mp hmem
        · rw [decode_eq_none.mpr hline] at hdecode
          cases hdecode
        · exact ⟨line, hmem, hline⟩
      obtain ⟨good, rest, cause, hbreak⟩ := ih hlater
      exact ⟨String.ofList text ++ good, rest, cause, hbreak.cons hdecode⟩

/-- The source goes on with another one once its readings are used up. -/
def append (source tail : Source) : Source := ⟨source.pending ++ tail.pending, tail.fault⟩

/-- The first read of bytes fails whose first line cannot be read. -/
theorem FailsAt.read_eq {fault : Option String} {rest : List UInt8} {cause : String}
    (h : FailsAt fault rest cause) : ∃ kept, (ofBytes rest fault).read.1 = some (.failed kept cause) := by
  cases h with
  | @failure rest cause hfeed =>
    by_cases hne : rest = []
    · subst hne
      exact ⟨[], rfl⟩
    · have hsplit : Text.splitAfter isLineFeed rest = [rest] := by
        simpa using Text.splitAfter_append hne (isLineFeed_eq_false hfeed) []
      have hany : rest.any isLineFeed = false := by
        rw [List.any_eq_false]
        intro byte hbyte
        simp [isLineFeed_eq_false hfeed byte hbyte]
      refine ⟨(decode rest).getD [], ?_⟩
      simp only [ofBytes, read, hsplit, List.map_cons, readingOf, hany]
      rfl
  | @line fault body more hfeed hnoText =>
    have hsplit := Text.splitAfter_append_cons (isLineFeed_eq_false hfeed) (x := 10) rfl more
    have hreading : readingOf fault (body ++ [10]) = .failed [] notText := by
      have hline : readingOfLine (body ++ [10]) = .failed [] notText := by
        rw [readingOfLine, decode_eq_none.mpr hnoText]
      cases fault <;> simp [readingOf, hline, isLineFeed]
    refine ⟨[], ?_⟩
    simp only [ofBytes, read, hsplit, List.map_cons, hreading]
  | last hfeed hnoText =>
    have hne : rest ≠ [] := by
      rintro rfl
      exact hnoText "" rfl
    have hsplit : Text.splitAfter isLineFeed rest = [rest] := by
      simpa using Text.splitAfter_append hne (isLineFeed_eq_false hfeed) []
    refine ⟨[], ?_⟩
    simp only [ofBytes, read, hsplit, List.map_cons, readingOf, readingOfLine,
      decode_eq_none.mpr hnoText]

/-- The bytes of a text are whole lines if the text is. -/
theorem whole_encode {text : List Char} (h : ∀ c, text.getLast? = some c → c = '\n') :
    Text.Whole isLineFeed (encode text) := by
  obtain rfl | ⟨before, c, rfl⟩ := List.eq_nil_or_concat' text
  · exact nofun
  · obtain rfl := h c List.getLast?_concat
    intro byte hbyte
    rw [encode_append, show encode ['\n'] = [10] from rfl, List.getLast?_concat] at hbyte
    cases hbyte
    rfl

/-- A source that breaks off is the source of the text before, which goes on with the rest. -/
theorem BreaksOff.ofBytes_eq {bytes rest : List UInt8} {fault : Option String} {good cause : String}
    (h : BreaksOff bytes fault good rest cause) :
    ofBytes bytes fault = (ofText good).append (ofBytes rest fault) := by
  obtain ⟨rfl, hwhole, -⟩ := h
  have hwhole := whole_encode hwhole
  have hreading : ∀ line ∈ Text.splitAfter (· == '\n') good.toList,
      readingOf fault (encode line) = .line line := by
    intro line hline
    have hmem : encode line ∈ Text.splitAfter isLineFeed (encode good.toList) := by
      rw [splitAfter_encode]
      exact List.mem_map_of_mem hline
    have hany : (encode line).any isLineFeed = true := hwhole.any_of_mem hmem
    have hline : readingOfLine (encode line) = .line line := by
      rw [readingOfLine, decode_encode]
    cases fault <;> simp [readingOf, hany, hline]
  rw [ofBytes, ← encode_toList, Text.splitAfter_append_of_whole hwhole, splitAfter_encode,
    List.map_append, List.map_map]
  simp only [append, ofText, ofChars, ofBytes]
  congr 2
  exact List.map_congr_left hreading

end Source

/-! ## Readers -/

namespace Reader

variable {r s : Reader} {tail : Source} {kept : List Char} {cause : String} {total : Nat}

/-- The reader that goes on with another source. -/
def before (r : Reader) (tail : Source) : Reader :=
  { r with source := r.source.map fun source => source.append tail }

theorem size_le_before (r : Reader) (tail : Source) : r.size ≤ (r.before tail).size := by
  unfold size
  apply Nat.add_le_add_left
  cases hsource : r.source with
  | none => exact Nat.zero_le _
  | some source =>
    show source.size ≤ ((r.source.map _).map Source.size).getD 0
    simp [hsource, Source.size, Source.append]

/-- Nothing but lines is left, `total` together with those that have been read. -/
def LinesLeft (total : Nat) (r : Reader) : Prop :=
  ∃ lines : List (List Char), r.source = some ⟨lines.map .line, none⟩ ∧ r.line + lines.length = total

/-- Reading on is the same as long as lines are left, and then fails. -/
theorem more_before (h : r.LinesLeft total) (htail : tail.read.1 = some (.failed kept cause)) :
    Ends (fun found s => s.LinesLeft total ∧ if found then more (r.before tail) = .ok true (s.before tail)
        else ∃ u, more (r.before tail) = .error (.unreadable ⟨total + 1, 1⟩ cause) u)
      (fun _ _ => False) (more r) := by
  obtain ⟨lines, hsource, hline⟩ := h
  by_cases hrest : r.rest = []
  · cases lines with
    | nil =>
      rw [more_of_end hrest hsource]
      refine .ok ⟨⟨[], hsource, hline⟩, ?_⟩
      have happend : (⟨[], none⟩ : Source).append tail = tail := rfl
      show ∃ u, more (r.before tail) = _
      cases hread : tail.read with
      | mk answer after =>
        rw [hread] at htail
        obtain rfl : answer = some (.failed kept cause) := htail
        simp [more, before, hrest, hsource, happend, hread, ← hline]
    | cons line lines =>
      have hmore := more_of_line hrest hsource
      rw [hmore]
      refine .ok ⟨⟨lines, rfl, ?_⟩, ?_⟩
      · rw [← hline, List.length_cons]
        simp only [onLine]
        omega
      · show more (r.before tail) = _
        simp [more, before, hrest, hsource, Source.read, Source.append, onLine]
  · rw [more_of_rest hrest]
    exact .ok ⟨⟨lines, hsource, hline⟩, more_of_rest (r := r.before tail) hrest⟩

/-- Moving past a lexeme does not depend on the source. -/
theorem take_before (tail : Source) (h : r.LinesLeft total) :
    Ends (fun _ s => s.LinesLeft total ∧ take (r.before tail) = .ok () (s.before tail))
      (fun e s => s.LinesLeft total ∧ take (r.before tail) = .error e (s.before tail)) (take r) := by
  cases ht : take r with
  | ok a s =>
    unfold take at ht
    split at ht
    · next lexeme hl =>
      cases ht
      refine .ok ⟨h, ?_⟩
      simp only [take, before, hl]
      rfl
    · split at ht <;> cases ht
  | error e s =>
    unfold take at ht
    split at ht
    · cases ht
    · next hl =>
      split at ht
      · next hrest =>
        cases ht
        rw [hrest] at hl
        exact .error ⟨h, by simp only [take, before, hrest, hl]⟩
      · next hrest =>
        cases ht
        rw [hrest] at hl
        exact .error ⟨h, by simp only [take, before, hrest, hl]; rfl⟩

/-- Moving past separators and a lexeme is the same as long as lines are left, and then fails. -/
theorem significant_before (h : r.LinesLeft total)
    (htail : tail.read.1 = some (.failed kept cause)) :
    Ends (fun found s => s.LinesLeft total ∧
        if found then significant (r.before tail) = .ok true (s.before tail)
        else ∃ u, significant (r.before tail) = .error (.unreadable ⟨total + 1, 1⟩ cause) u)
      (fun e s => s.LinesLeft total ∧ significant (r.before tail) = .error e (s.before tail))
      (significant r) := by
  fun_induction significant r with
  | case1 r e s hm => exact ((more_before h htail).of_error hm).elim
  | case2 r s hm =>
    obtain ⟨hs, u, hu⟩ := (more_before h htail).of_ok hm
    exact .ok ⟨hs, u, significant_of_more_error hu⟩
  | case3 r s hm e t ht =>
    obtain ⟨hs, hmore⟩ := (more_before h htail).of_ok hm
    obtain ⟨ht, htake⟩ := (take_before tail hs).of_error ht
    exact .error ⟨ht, significant_of_error hmore htake⟩
  | case4 r s hm t ht hb hlt ih =>
    obtain ⟨hs, hmore⟩ := (more_before h htail).of_ok hm
    obtain ⟨ht, htake⟩ := (take_before tail hs).of_ok ht
    have hblank : (t.before tail).category = some .blank := hb
    rw [significant_of_ok hmore htake, if_pos hblank]
    exact ih ht
  | case5 r s hm t ht hb =>
    obtain ⟨hs, hmore⟩ := (more_before h htail).of_ok hm
    obtain ⟨ht, htake⟩ := (take_before tail hs).of_ok ht
    have hblank : (t.before tail).category ≠ some .blank := hb
    refine .ok ⟨ht, ?_⟩
    show significant (r.before tail) = _
    rw [significant_of_ok hmore htake, if_neg hblank]

end Reader

/-! ## Streams -/

namespace TokenStream

variable {s s' : TokenStream} {tail : Source} {kept : List Char} {cause : String} {total : Nat}

/-- Everything that an iteration gives, to the end. -/
inductive Iterates : TokenStream → List (Except (Stop TokenError) Token) → TokenStream → Prop
  | done {s : TokenStream} (stop : s.next = (none, s)) : Iterates s [] s
  | step {s s' s'' : TokenStream} {item : Except (Stop TokenError) Token}
    {items : List (Except (Stop TokenError) Token)} (next : s.next = (some item, s'))
    (rest : Iterates s' items s'') : Iterates s (item :: items) s''

/-- An iteration without a defect gives the items that a number of steps gives, if it is no smaller
than theirs. -/
theorem Iterates.itemsWithin_eq {items : List (Except (Stop TokenError) Token)}
    (h : Iterates s items s') (hdefect : ∀ defect, .error (.defect defect) ∉ items) {n : Nat}
    (hn : items.length ≤ n) : s.itemsWithin n = items := by
  induction h generalizing n with
  | done hnext =>
    cases n with
    | zero => rfl
    | succ n => simp only [itemsWithin, hnext]
  | @step s s' s'' item items hnext _ ih =>
    obtain ⟨n, rfl⟩ : ∃ m, n = m + 1 := ⟨n - 1, by simp only [List.length_cons] at hn; omega⟩
    have hrest := ih (fun defect hmem => hdefect defect (List.mem_cons_of_mem _ hmem))
      (by simpa using hn)
    rcases item with (_ | defect) | t
    · simp only [itemsWithin, hnext, hrest]
    · exact absurd List.mem_cons_self (hdefect defect)
    · simp only [itemsWithin, hnext, hrest]

theorem length_itemsWithin_le (n : Nat) (s : TokenStream) : (s.itemsWithin n).length ≤ n := by
  induction n generalizing s with
  | zero => exact Nat.le_refl 0
  | succ n ih =>
    simp only [itemsWithin]
    split
    · exact Nat.zero_le _
    · exact Nat.succ_le_succ (Nat.zero_le n)
    · exact Nat.succ_le_succ (ih _)

/-- Nothing comes after a defect. -/
theorem not_mem_of_itemsWithin {n : Nat} {items : List (Except (Stop TokenError) Token)}
    {item : Except (Stop TokenError) Token} (h : s.itemsWithin n = items ++ [item])
    (defect : Defect) : .error (.defect defect) ∉ items := by
  induction n generalizing s items with
  | zero => exact absurd h.symm (by simp [itemsWithin])
  | succ n ih =>
    rcases hnext : s.next with ⟨_ | (e | defect') | t, s'⟩ <;>
      simp only [itemsWithin, hnext] at h
    · exact absurd h.symm (by simp)
    · obtain ⟨rfl, -⟩ | ⟨items, rfl, hrest⟩ := List.append_eq_cons_iff.mp h.symm
      · exact List.not_mem_nil
      · exact List.not_mem_cons_of_ne_of_not_mem (by simp) (ih hrest)
    · obtain ⟨rfl, -⟩ | ⟨_, -, hrest⟩ := List.append_eq_cons_iff.mp h.symm
      · exact List.not_mem_nil
      · exact absurd hrest.symm (by simp)
    · obtain ⟨rfl, -⟩ | ⟨items, rfl, hrest⟩ := List.append_eq_cons_iff.mp h.symm
      · exact List.not_mem_nil
      · exact List.not_mem_cons_of_ne_of_not_mem (by simp) (ih hrest)

/-- The stream that goes on with another source. -/
def before (s : TokenStream) (tail : Source) : TokenStream :=
  { s with reader := s.reader.before tail }

/-- The failure to read the line after the first `total` ones. -/
def unreadable (total : Nat) (cause : String) : Stop TokenError :=
  .error (.lexeme (.unreadable ⟨total + 1, 1⟩ cause))

/-- What a step makes of what its reader has found. -/
def stepOn (s : TokenStream) :
    EStateM.Result LexemeError Reader Bool → EStateM.Result (Stop TokenError) TokenStream Kind
  | .ok false r =>
    .ok .endOfText
      { s with reader := r, ended := true, current := some (Token.endOfText r.span.stop) }
  | .ok true r =>
    match s.lexicon.token r with
    | .ok token => .ok token.kind { s with reader := r, current := some token }
    | .error stop => .error stop { s with reader := r, current := none }
  | .error e r =>
    if e.isFatal then
      .error (.error (.lexeme e)) { s with reader := r.close, ended := true, current := none }
    else .error (.error (.lexeme e)) { s with reader := r, current := none }

theorem advance_eq_stepOn (hended : s.ended = false) :
    s.advance = s.stepOn s.reader.significant := by
  unfold advance
  rw [if_neg (by rw [hended]; exact nofun)]
  rfl

/-- A step is the same as long as lines are left. The step to the end of the text fails instead, and
ends the stream as well, without a token. -/
theorem advance_before (hended : s.ended = false) (hlines : s.reader.LinesLeft total)
    (htail : tail.read.1 = some (.failed kept cause)) :
    Ends (fun k s' => if s'.ended then ∃ u, u.ended = true ∧ u.current = none ∧
          (s.before tail).advance = .error (unreadable total cause) u
        else s'.reader.LinesLeft total ∧ (s.before tail).advance = .ok k (s'.before tail))
      (fun stop s' => (s'.ended = true ∨ s'.reader.LinesLeft total) ∧
        (s.before tail).advance = .error stop (s'.before tail)) s.advance := by
  have hsignificant := Reader.significant_before hlines htail
  have hstep : (s.before tail).advance = (s.before tail).stepOn (s.reader.before tail).significant :=
    advance_eq_stepOn hended
  rw [hstep, advance_eq_stepOn hended]
  cases hr : s.reader.significant with
  | ok found r =>
    obtain ⟨hlines, hbefore⟩ := hsignificant.of_ok hr
    cases found with
    | false =>
      obtain ⟨u, hu⟩ := hbefore
      rw [hu]
      exact .ok ⟨{ s with reader := u.close, ended := true, current := none }, rfl, rfl, rfl⟩
    | true =>
      have hbefore : (s.reader.before tail).significant = .ok true (r.before tail) := hbefore
      have htoken : (s.before tail).lexicon.token (r.before tail) = s.lexicon.token r := rfl
      rw [hbefore]
      simp only [stepOn, htoken]
      cases s.lexicon.token r with
      | ok t =>
        refine .ok ?_
        rw [if_neg (by simp [hended])]
        exact ⟨hlines, rfl⟩
      | error stop => exact .error ⟨.inr hlines, rfl⟩
  | error e r =>
    obtain ⟨hlines, hbefore⟩ := hsignificant.of_error hr
    rw [hbefore]
    simp only [stepOn]
    by_cases hfatal : e.isFatal = true
    · rw [if_pos hfatal, if_pos hfatal]
      exact .error ⟨.inl rfl, rfl⟩
    · rw [if_neg hfatal, if_neg hfatal]
      exact .error ⟨.inr hlines, rfl⟩

theorem not_ended_of_itemsWithin {n : Nat} {items : List (Except (Stop TokenError) Token)}
    {item : Except (Stop TokenError) Token} (h : s.itemsWithin n = items ++ [item]) :
    s.ended = false := by
  by_contra hended
  rw [itemsWithin_of_ended (by simpa using hended)] at h
  exact absurd h.symm (by simp)

/-- What an iteration gives that goes on with a source whose first read fails: what it gives of the
lines, without the end of the text, and then the failure. -/
theorem iterates_before {n : Nat} {items : List (Except (Stop TokenError) Token)} {stop : Position}
    (hs : s.Standard) (hended : s.ended = false) (hlines : s.reader.LinesLeft total)
    (htail : tail.read.1 = some (.failed kept cause))
    (h : s.itemsWithin n = items ++ [.ok (Token.endOfText stop)]) :
    ∃ u, Iterates (s.before tail) (items ++ [.error (unreadable total cause)]) u ∧
      u.ended = true ∧ u.current = none := by
  induction n generalizing s items with
  | zero => exact absurd h (by simp [itemsWithin])
  | succ n ih =>
    have hended' : (s.before tail).ended = false := hended
    cases hadv : s.advance with
    | ok k s' =>
      have hbefore := (advance_before hended hlines htail).of_ok hadv
      obtain ⟨t, ht, -⟩ := current_of_advance hadv
      have hkind := (hs.of_advance hadv).ended_iff t ht
      rw [itemsWithin_of_ok hended hadv ht] at h
      obtain ⟨rfl, hitem⟩ | ⟨items, rfl, hrest⟩ := List.append_eq_cons_iff.mp h.symm
      · -- the token at hand is the one that ends the text
        have hlast : s'.ended = true := by
          apply hkind.mpr
          injection hitem with htoken
          injection htoken with htoken
          rw [← htoken]
          rfl
        rw [hlast] at hbefore
        obtain ⟨u, hu, hcurrent, hfail⟩ := hbefore
        have hdone : u.next = (none, u) := by simp [next, hu]
        exact ⟨u, .step (next_of_error hended' hfail) (.done hdone), hu, hcurrent⟩
      · have hgo := not_ended_of_itemsWithin hrest
        rw [hgo] at hbefore
        obtain ⟨hlines', hbefore⟩ := hbefore
        obtain ⟨u, hu, hend⟩ := ih (hs.of_advance hadv) hgo hlines' hrest
        exact ⟨u, .step (next_of_ok hended' hbefore ht) hu, hend⟩
    | error stop s' =>
      obtain ⟨hgo, hbefore⟩ := (advance_before hended hlines htail).of_error hadv
      cases stop with
      | defect defect =>
        simp only [itemsWithin, next_of_error hended hadv] at h
        cases items with
        | nil => cases h
        | cons item items => cases items <;> cases h
      | error e =>
        rw [itemsWithin_of_error hended hadv] at h
        obtain ⟨-, hitem⟩ | ⟨items, rfl, hrest⟩ := List.append_eq_cons_iff.mp h.symm
        · cases hitem
        · have hlast := not_ended_of_itemsWithin hrest
          have hlines' := hgo.resolve_left (by rw [hlast]; exact Bool.false_ne_true)
          obtain ⟨u, hu, hend⟩ := ih (hs.of_advance_error hadv) hlast hlines' hrest
          exact ⟨u, .step (next_of_error hended' hbefore) hu, hend⟩

end TokenStream

/-! ## The iteration over a broken source -/

/-- What comes of the bytes of a source, one of whose lines cannot be read. -/
structure BrokenReading (bytes : List UInt8) (fault : Option String) (good : String)
    (rest : List UInt8) (cause : String) (items : List (Except (Stop TokenError) Token))
    (stop : Position) (s : TokenStream) : Prop where
  /-- The lines of `good` come before the first line that cannot be read. -/
  breaksOff : Source.BreaksOff bytes fault good rest cause
  /-- They alone give `items` and the end of the text. -/
  good_items : (TokenStream.ofSource Lexicon.standard
    (Source.ofBytes good.toUTF8.data.toList none)).items = items ++ [.ok (Token.endOfText stop)]
  /-- The source gives `items` and the failure to read the line after them. -/
  items_eq : (TokenStream.ofSource Lexicon.standard (Source.ofBytes bytes fault)).items = items ++
    [.error (.error (.lexeme (.unreadable ⟨good.toList.count '\n' + 1, 1⟩ cause)))]
  /-- These are given one after the other, and then nothing. -/
  iterates : (TokenStream.ofSource Lexicon.standard (Source.ofBytes bytes fault)).Iterates (items ++
    [.error (.error (.lexeme (.unreadable ⟨good.toList.count '\n' + 1, 1⟩ cause)))]) s
  hasNext : s.hasNext = false
  token : s.token = .error .noCurrentToken
  advance : s.advance = .error (.error .pastEnd) s

/-- An iteration over a source that breaks off gives what comes of the lines before, and then the
failure to read the next one. -/
theorem Source.BreaksOff.iterates {bytes rest : List UInt8} {fault : Option String}
    {good cause : String} {items : List (Except (Stop TokenError) Token)} {stop : Position}
    (h : Source.BreaksOff bytes fault good rest cause)
    (hgood : (TokenStream.ofSource Lexicon.standard (Source.ofText good)).items =
      items ++ [.ok (Token.endOfText stop)]) :
    let s := TokenStream.ofSource Lexicon.standard (Source.ofBytes bytes fault)
    let all := items ++ [.error (TokenStream.unreadable (good.toList.count '\n') cause)]
    s.items = all ∧ ∃ s', s.Iterates all s' ∧ s'.ended = true ∧ s'.current = none := by
  intro s all
  obtain ⟨kept, htail⟩ := h.fails.read_eq
  -- the iteration over the lines before
  let start := TokenStream.ofSource Lexicon.standard (Source.ofText good)
  have hwhole : Text.Whole (· == '\n') good.toList := by
    intro c hc
    simp [h.whole c hc]
  have hlines : start.reader.LinesLeft (good.toList.count '\n') :=
    ⟨_, rfl, (Nat.zero_add _).trans hwhole.length_splitAfter⟩
  -- and the one that goes on
  obtain ⟨s', hs, hended, hcurrent⟩ := TokenStream.iterates_before
    (TokenStream.standard_ofSource (Source.ofText good)) rfl hlines htail hgood
  have hbefore : start.before (Source.ofBytes rest fault) = s := by
    show _ = TokenStream.ofSource Lexicon.standard (Source.ofBytes bytes fault)
    rw [h.ofBytes_eq]
    rfl
  have hlength : items.length + 1 ≤ (start.before (Source.ofBytes rest fault)).reader.size + 1 := by
    have hle : start.items.length ≤ start.reader.size + 1 :=
      TokenStream.length_itemsWithin_le _ start
    have hsize := Reader.size_le_before start.reader (Source.ofBytes rest fault)
    rw [hgood, List.length_append, List.length_singleton] at hle
    exact hle.trans (Nat.succ_le_succ hsize)
  rw [hbefore] at hs hlength
  refine ⟨hs.itemsWithin_eq ?_ ?_, s', hs, hended, hcurrent⟩
  · intro defect hmem
    obtain hmem | hmem := List.mem_append.mp hmem
    · exact TokenStream.not_mem_of_itemsWithin hgood defect hmem
    · cases List.mem_singleton.mp hmem
  · rw [List.length_append]
    exact hlength

/-- A source, one of whose lines cannot be read, gives what the lines before give, and then one
error. -/
theorem exists_brokenReading {bytes : List UInt8} {fault : Option String}
    (h : fault.isSome ∨ ∃ line ∈ Text.splitAfter Source.isLineFeed bytes,
      ∀ text : String, text.toUTF8.data.toList ≠ line) :
    ∃ good rest cause items stop s, BrokenReading bytes fault good rest cause items stop s := by
  obtain ⟨good, rest, cause, hbreak⟩ := Source.exists_breaksOff h
  have hproper : Lexicon.standard.Proper := show "" ∉ _ by decide
  obtain ⟨items, stop, hgood⟩ : ∃ items stop,
      (TokenStream.ofSource Lexicon.standard (Source.ofText good)).items =
        items ++ [.ok (Token.endOfText stop)] :=
    ⟨_, _, TokenStream.items_ofText hproper good⟩
  obtain ⟨hitems, s, hs, hended, hcurrent⟩ := hbreak.iterates hgood
  refine ⟨good, rest, cause, items, stop, s, hbreak, ?_, hitems, hs, ?_, ?_, ?_⟩
  · rw [Source.ofBytes_toUTF8]
    exact hgood
  · simp [TokenStream.hasNext, hended]
  · simp [TokenStream.token, hcurrent]
  · simp [TokenStream.advance, hended]

/-- For example this source, which fails in its second line, after a word and a symbol that could be
read. -/
theorem exists_brokenReading_midLine : (some "device lost").isSome ∧
    ∃ good rest cause items stop s, BrokenReading "var $\nx =".toUTF8.data.toList
      (some "device lost") good rest cause items stop s := by
  have h : (some "device lost").isSome := rfl
  exact ⟨h, exists_brokenReading (.inl h)⟩

example : (TokenStream.ofSource Lexicon.standard
    (Source.ofBytes "var $\nx =".toUTF8.data.toList (some "device lost"))).items =
      [.ok ⟨.varWord, "var", ⟨⟨1, 1⟩, ⟨1, 4⟩⟩, none⟩,
        .error (.error (.lexeme (.malformed "$" ⟨1, 5⟩))),
        .error (.error (.lexeme (.unreadable ⟨2, 1⟩ "device lost")))] := by
  cbv

end ListScript
