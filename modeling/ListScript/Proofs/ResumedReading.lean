import ListScript.Proofs.BrokenSource
import ListScript.Proofs.PlacesInText

/-!
# Reading on after a failed read

The device that a source reads from may fail at any byte, and a reader can be asked again after that.
A place is where the bytes say that it is: one line further for each line feed, and one column further
for each character since. A reader counts otherwise, namely what its reads succeeded in. The two agree
where a line comes in one read, and where no line before it was lost for being no text.

* `Delivery`, `Source.ofDeliveries` : bytes and failures in the order in which they come, and the source
  of them (`Source.ofDeliveries_byte`);
* `Position.afterBytes?` : the place after some bytes (`Position.afterBytes?_encode`);
* `Position.counted`, `Reader.Along` : the place that a reader has counted and how far it has come, which
  every call keeps (`Reader.exists_along_after`);
* `InStep` : where the two places agree (`afterBytes?_iff_inStep`); `found_in_step` : what a reader
  finds.
-/

namespace ListScript

/-! ## Bytes and failures -/

/-- What a device hands over: a byte, or a failure. -/
inductive Delivery where
  | byte (value : UInt8)
  | failure (cause : String)
  deriving DecidableEq, Repr

namespace Delivery

/-- A read goes on to a line feed or a failure. -/
def endsRead : Delivery → Bool
  | byte value => Source.isLineFeed value
  | failure _ => true

/-- The byte that is handed over, if it is one. -/
def byte? : Delivery → Option UInt8
  | byte value => some value
  | failure _ => none

/-- The bytes among some deliveries. -/
def bytes (stretch : List Delivery) : List UInt8 := stretch.filterMap byte?

theorem bytes_append (xs ys : List Delivery) : bytes (xs ++ ys) = bytes xs ++ bytes ys :=
  List.filterMap_append

@[simp] theorem bytes_map_byte (values : List UInt8) : bytes (values.map byte) = values := by
  rw [bytes, List.filterMap_map]
  exact List.filterMap_some

end Delivery

namespace Source

/-- The deliveries of each read. -/
def stretches (deliveries : List Delivery) : List (List Delivery) :=
  Text.splitAfter Delivery.endsRead deliveries

/-- The answer of the read of some deliveries. It fails with them if their last one is a failure. -/
def readingOfStretch (fault : Option String) (stretch : List Delivery) : Reading :=
  match stretch.getLast? with
  | some (.failure cause) => readingOfBreak (Delivery.bytes stretch) cause
  | _ => readingOf fault (Delivery.bytes stretch)

/-- The source of some deliveries. With a fault, reading fails once they are used up. -/
def ofDeliveries (deliveries : List Delivery) (fault : Option String) : Source :=
  ⟨(stretches deliveries).map (readingOfStretch fault), fault⟩

/-- Without failures it is the source of the bytes. -/
theorem ofDeliveries_byte (values : List UInt8) (fault : Option String) :
    ofDeliveries (values.map .byte) fault = ofBytes values fault := by
  have hsplit : stretches (values.map .byte) =
      (Text.splitAfter isLineFeed values).map (List.map Delivery.byte) := by
    have hmap : ∀ part : List UInt8, part.map .byte = part.flatMap fun value => [Delivery.byte value] :=
      fun _ => List.map_eq_flatMap
    rw [stretches, hmap, funext hmap]
    exact Text.splitAfter_flatMap (fun value hvalue => ⟨Delivery.byte value, rfl, hvalue⟩)
      (fun value hvalue => ⟨by simp, by simpa [Delivery.endsRead] using hvalue⟩) values
  have hreading : ∀ part : List UInt8,
      readingOfStretch fault (part.map .byte) = readingOf fault part := by
    intro part
    rw [readingOfStretch, Delivery.bytes_map_byte, List.getLast?_map]
    cases part.getLast? <;> rfl
  rw [ofDeliveries, ofBytes, hsplit, List.map_map]
  exact congrArg (Source.mk · fault) (List.map_congr_left fun part _ => hreading part)

end Source

/-! ## The place after some bytes -/

/-- The bytes since the last line feed. -/
def Source.lastLine (bytes : List UInt8) : List UInt8 :=
  (bytes.reverse.takeWhile (! Source.isLineFeed ·)).reverse

/-- The place after some bytes: one more than the number of their line feeds, and one more than the
number of characters since the last of them. There is none if the bytes since then are no text. -/
def Position.afterBytes? (bytes : List UInt8) : Option Position :=
  (Source.decode (Source.lastLine bytes)).map fun text =>
    ⟨1 + bytes.countP Source.isLineFeed, 1 + text.length⟩

namespace Source

/-- Every character has one byte that begins one. -/
theorem countP_encode (text : List Char) :
    (encode text).countP (fun byte => decide byte.IsUTF8FirstByte) = text.length := by
  have hchar : ∀ c : Char,
      (String.utf8EncodeChar c).countP (fun byte => decide byte.IsUTF8FirstByte) = 1 := by
    intro c
    obtain ⟨byte, more, hbytes⟩ := List.exists_cons_of_ne_nil (String.utf8EncodeChar_ne_nil (c := c))
    have hfirst : ∀ i (hi : i < (byte :: more).length),
        ((byte :: more)[i]).IsUTF8FirstByte ↔ i = 0 := by
      rw [← hbytes]
      exact fun i hi => UInt8.isUTF8FirstByte_getElem_utf8EncodeChar
    rw [hbytes, List.countP_cons_of_pos (by simpa using hfirst 0 (Nat.succ_pos _)), Nat.add_eq_right,
      List.countP_eq_zero]
    intro b hb
    obtain ⟨i, hi, rfl⟩ := List.getElem_of_mem hb
    simpa using hfirst (i + 1) (Nat.succ_lt_succ hi)
  induction text with
  | nil => rfl
  | cons c text ih =>
    rw [← List.singleton_append, encode_append, List.countP_append, ih, encode,
      List.flatMap_singleton, hchar, List.singleton_append, List.length_cons, Nat.add_comm]

/-- A text cannot be had from more bytes with the same number of characters. -/
theorem eq_nil_of_encode_eq {text more : List Char} {bytes : List UInt8}
    (h : encode text = bytes ++ encode more) (hlength : text.length = more.length) : bytes = [] := by
  have hcount := congrArg (List.countP fun byte => decide byte.IsUTF8FirstByte) h
  rw [List.countP_append, countP_encode, countP_encode, hlength, Nat.right_eq_add] at hcount
  cases text with
  | nil => exact (List.append_eq_nil_iff.mp h.symm).1
  | cons c text =>
    cases bytes with
    | nil => rfl
    | cons byte bytes =>
      -- the first byte of a text begins a character
      have hfirst : byte.IsUTF8FirstByte := by
        have hpos : 0 < (String.utf8EncodeChar c).length :=
          List.length_pos_iff.mpr String.utf8EncodeChar_ne_nil
        have hbyte : (String.utf8EncodeChar c)[0] = byte := by
          rw [encode, List.flatMap_cons] at h
          have hhead := congrArg List.head? h
          rw [List.head?_append_of_ne_nil _ String.utf8EncodeChar_ne_nil] at hhead
          rw [List.getElem_zero, ← Option.some_inj, ← List.head?_eq_some_head, hhead]
          rfl
        rw [← hbyte]
        exact UInt8.isUTF8FirstByte_getElem_utf8EncodeChar.mpr rfl
      rw [List.countP_eq_zero] at hcount
      exact absurd (by simpa using hfirst) (hcount byte List.mem_cons_self)

theorem isLineFeed_encode {text : List Char} (h : '\n' ∉ text) :
    ∀ byte ∈ encode text, isLineFeed byte = false := by
  refine isLineFeed_eq_false fun hmem => ?_
  obtain ⟨c, hc, hbyte⟩ := List.mem_flatMap.mp hmem
  obtain rfl := lineFeed_mem_utf8EncodeChar hbyte
  exact h hc

theorem lastLine_append (bytes : List UInt8) {text : List Char} (h : '\n' ∉ text) :
    lastLine (bytes ++ encode text) = lastLine bytes ++ encode text := by
  have hall : ∀ byte ∈ (encode text).reverse, (! isLineFeed byte) = true := by
    intro byte hbyte
    rw [isLineFeed_encode h byte (List.mem_reverse.mp hbyte)]
    rfl
  simp only [lastLine, List.reverse_append, List.takeWhile_append_of_pos hall, List.reverse_reverse]

theorem lastLine_eq_nil_iff {bytes : List UInt8} :
    lastLine bytes = [] ↔ Text.Whole isLineFeed bytes := by
  rw [lastLine, List.reverse_eq_nil_iff, Text.Whole, ← List.head?_reverse]
  cases bytes.reverse with
  | nil => simp
  | cons byte more => cases hfeed : isLineFeed byte <;> simp [hfeed]

end Source

namespace Position

/-- A place in the column behind some text is that after the bytes before it and those of the text just
if the text begins a line. -/
theorem afterBytes?_append_iff {bytes : List UInt8} {text : List Char} (h : '\n' ∉ text)
    {line : Nat} : afterBytes? (bytes ++ Source.encode text) = some ⟨line, 1 + text.length⟩ ↔
      line = 1 + bytes.countP Source.isLineFeed ∧ Text.Whole Source.isLineFeed bytes := by
  have hcount : (Source.encode text).countP Source.isLineFeed = 0 :=
    List.countP_eq_zero.mpr fun byte hbyte => by simp [Source.isLineFeed_encode h byte hbyte]
  rw [afterBytes?, Source.lastLine_append bytes h, List.countP_append, hcount, Nat.add_zero,
    ← Source.lastLine_eq_nil_iff, Option.map_eq_some_iff]
  constructor
  · rintro ⟨found, hfound, hplace⟩
    obtain ⟨rfl, hlength⟩ := Position.mk.inj hplace
    exact ⟨rfl, Source.eq_nil_of_encode_eq (Source.encode_of_decode hfound) (by omega)⟩
  · rintro ⟨rfl, hnil⟩
    exact ⟨text, by rw [hnil, List.nil_append, Source.decode_encode], rfl⟩

end Position

/-- The bytes of a text have as many line feeds as the text. -/
theorem Source.countP_lineFeed_encode (text : List Char) :
    (encode text).countP isLineFeed = text.countP (· == '\n') := by
  induction text with
  | nil => rfl
  | cons c text ih =>
    rw [← List.singleton_append, encode_append, List.countP_append, List.countP_append, ih]
    congr 1
    by_cases hc : c = '\n'
    · subst hc
      rfl
    · have hnot : '\n' ∉ [c] := by simpa using Ne.symm hc
      rw [List.countP_eq_zero.mpr fun byte hbyte => by simp [isLineFeed_encode hnot byte hbyte]]
      simp [hc]

/-- The place after the bytes of a text is the place after the text. -/
theorem Position.afterBytes?_encode (text : List Char) :
    afterBytes? (Source.encode text) = some (after text) := by
  obtain ⟨head, tail, rfl, hwhole, htail, hafter⟩ := Text.exists_lastLine text
  rw [hafter, Nat.add_comm _ 1, Nat.add_comm _ 1, Source.encode_append, afterBytes?_append_iff htail,
    Source.countP_lineFeed_encode]
  exact ⟨rfl, Source.whole_encode fun c hc => by simpa using hwhole c hc⟩

/-! ## The place that a reader counts -/

/-- The reading gave a line. -/
def Reading.isLine : Reading → Bool
  | .line _ => true
  | .failed _ _ => false

namespace Position

/-- The place after a reading. Only a line that was read begins a new line; what a failed read has kept
counts as if it stood behind the line before. -/
def past (p : Position) : Reading → Position
  | .line text => ⟨p.line + 1, 1 + text.length⟩
  | .failed kept _ => p.right kept.length

/-- The place that is counted in some readings. -/
def counted (readings : List Reading) : Position := readings.foldl past ⟨0, 1⟩

theorem counted_concat (readings : List Reading) (reading : Reading) :
    counted (readings ++ [reading]) = (counted readings).past reading := by
  rw [counted, List.foldl_concat]
  rfl

/-- As many lines are counted as were read. -/
theorem line_counted (readings : List Reading) :
    (counted readings).line = readings.countP Reading.isLine := by
  induction readings using List.reverseRecOn with
  | nil => rfl
  | append_singleton readings reading ih =>
    rw [counted_concat, List.countP_append, ← ih]
    cases reading <;> rfl

end Position

namespace Reader

/-- What can be asked of a reader, again and again. -/
inductive Call where
  | more | advance
  deriving DecidableEq, Repr

/-- The reader after a call, also if this fails. -/
def call (r : Reader) : Call → Reader
  | .more => stateAfter more r
  | .advance => stateAfter advance r

/-- The reader after some calls. -/
def after (r : Reader) (calls : List Call) : Reader := calls.foldl call r

/-- What a call of `advance` finds, with the reader after it. -/
inductive Gives (r : Reader) : Piece → Reader → Prop
  | lexeme {s : Reader} (next : advance r = .ok () s) : Gives r (.lexeme s.text s.category s.span) s
  | malformed {s : Reader} {text : String} {position : Position}
    (next : advance r = .error (.malformed text position) s) : Gives r (.malformed text position) s

/-- How far a reader has come in a source: these readings are done and those pending, what is left of
the line at hand is the end of the last reading, and the place of its end is the one that is counted. -/
structure Along (source : Source) (done pending : List Reading) (r : Reader) : Prop where
  readings : source.pending = done ++ pending
  source_eq : r.source = some ⟨pending, source.fault⟩
  rest : r.rest <:+ (done.getLast?.map Reading.text).getD []
  place : Position.counted done = r.position.right r.rest.length

section Along

variable {source : Source} {done pending : List Reading} {r : Reader}

theorem along_ofSource (p : Pattern) (source : Source) :
    Along source [] source.pending (ofSource p source) :=
  ⟨rfl, rfl, List.nil_suffix, rfl⟩

/-- Whether there is more is found out by a reading at most. -/
theorem Along.more (h : Along source done pending r) (hlines : Reading.line [] ∉ source.pending) :
    Ends (fun found s => (∃ done pending, Along source done pending s) ∧ (found = true → s.rest ≠ []))
      (fun _ s => ∃ done pending, Along source done pending s) (more r) := by
  by_cases hrest : r.rest = []
  · have hplace := h.place
    rw [hrest] at hplace
    simp only [Reader.more, hrest, List.isEmpty_nil, Bool.not_true, Bool.false_eq_true, if_false,
      h.source_eq]
    cases pending with
    | nil =>
      cases hfault : source.fault with
      | none =>
        simp only [Source.read, Option.map_none]
        refine .ok ⟨⟨done, [], h.readings, by rw [hfault], List.nil_suffix, hplace⟩, fun hfound => ?_⟩
        exact absurd hfound Bool.false_ne_true
      | some cause =>
        simp only [Source.read, Option.map_some]
        exact .error ⟨done, [], h.readings, by rw [hfault], List.nil_suffix, hplace⟩
    | cons reading pending =>
      have hreadings : source.pending = (done ++ [reading]) ++ pending := by
        rw [h.readings, List.append_assoc, List.singleton_append]
      cases reading with
      | line text =>
        simp only [Source.read]
        refine .ok ⟨⟨done ++ [.line text], pending, hreadings, rfl, ?_, ?_⟩, fun _ hnil => ?_⟩
        · rw [List.getLast?_concat]
          exact List.suffix_refl text
        · rw [Position.counted_concat, hplace]
          rfl
        · refine hlines ?_
          rw [hreadings, ← hnil]
          exact List.mem_append_left _ (List.mem_append_right _ List.mem_cons_self)
      | failed kept cause =>
        simp only [Source.read]
        refine .error ⟨done ++ [.failed kept cause], pending, hreadings, rfl, ?_, ?_⟩
        · rw [List.getLast?_concat]
          exact List.suffix_refl kept
        · rw [Position.counted_concat, hplace]
          rfl
  · rw [more_of_rest hrest]
    exact .ok ⟨⟨done, pending, h⟩, fun _ => hrest⟩

/-- What is passed over is counted. -/
theorem Along.of_rest {s : Reader} {text : List Char} (h : Along source done pending r)
    (hsource : s.source = r.source) (hrest : r.rest = text ++ s.rest)
    (hplace : s.position = r.position.right text.length) : Along source done pending s := by
  refine ⟨h.readings, hsource.trans h.source_eq, ?_, ?_⟩
  · refine List.IsSuffix.trans ?_ h.rest
    rw [hrest]
    exact List.suffix_append text s.rest
  · rw [h.place, hplace, hrest, List.length_append]
    simp only [Position.right, Nat.add_assoc]

end Along

/-- What is passed over stands at the beginning of what is left of the line. -/
theorem ends_take (r : Reader) :
    Ends (fun _ s => ∃ text : List Char, r.rest = text ++ s.rest ∧ s.source = r.source ∧
        s.position = r.position.right text.length ∧ s.text = String.ofList text ∧
        s.span = ⟨r.position, r.position.right text.length⟩)
      (fun e s => ∃ text : List Char, r.rest = text ++ s.rest ∧ s.source = r.source ∧
        s.position = r.position.right text.length ∧
        ∀ found position, e = .malformed found position →
          found = String.ofList text ∧ position = r.position ∧ text.length = 1) (take r) := by
  cases hlexeme : r.pattern.lexeme? r.rest with
  | some lexeme =>
    obtain ⟨rest, hrest⟩ := Pattern.prefix_of_lexeme? hlexeme
    rw [← hrest] at hlexeme
    rw [take_of_lexeme hrest.symm hlexeme]
    exact .ok ⟨lexeme.text, hrest.symm, rfl, rfl, rfl, rfl⟩
  | none =>
    cases hrest : r.rest with
    | nil =>
      rw [hrest] at hlexeme
      simp only [take, hrest, hlexeme]
      refine .error ⟨[], hrest.symm, rfl, rfl, ?_⟩
      rintro _ _ ⟨⟩
    | cons c rest =>
      rw [hrest] at hlexeme
      rw [take_of_none hrest hlexeme]
      refine .error ⟨[c], rfl, rfl, rfl, ?_⟩
      rintro _ _ ⟨⟩
      exact ⟨rfl, rfl, rfl⟩

theorem advance_of_more {r s : Reader} {found : Bool} (h : more r = .ok found s) :
    advance r = if found then take s else .error .exhausted s := by
  change EStateM.bind more _ r = _
  simp only [EStateM.bind, h]
  cases found <;> rfl

theorem advance_of_more_error {r s : Reader} {e : LexemeError} (h : more r = .error e s) :
    advance r = .error e s := by
  change EStateM.bind more _ r = _
  simp only [EStateM.bind, h]

/-- A read does not find a malformed character. -/
theorem more_ne_malformed (r s : Reader) (text : String) (position : Position) :
    more r ≠ .error (.malformed text position) s := by
  unfold more
  split
  · exact nofun
  · split
    · exact nofun
    · split <;> exact nofun

section Calls

variable {source : Source} {r : Reader} (hlines : Reading.line [] ∉ source.pending)
include hlines

/-- A call that moves past something keeps to the source. -/
theorem ends_advance (h : ∃ done pending, Along source done pending r) :
    Ends (fun _ s => ∃ done pending, Along source done pending s)
      (fun _ s => ∃ done pending, Along source done pending s) (advance r) := by
  obtain ⟨done, pending, h⟩ := h
  refine Ends.bind (h.more hlines) fun found s hs => ?_
  obtain ⟨⟨done, pending, hs⟩, -⟩ := hs
  cases found with
  | false => exact .error ⟨done, pending, hs⟩
  | true =>
    refine (ends_take s).mono ?_ ?_
    · rintro _ t ⟨text, hrest, hsource, hplace, -, -⟩
      exact ⟨done, pending, hs.of_rest hsource hrest hplace⟩
    · rintro _ t ⟨text, hrest, hsource, hplace, -⟩
      exact ⟨done, pending, hs.of_rest hsource hrest hplace⟩

/-- Every call keeps to the source. -/
theorem exists_along_call (h : ∃ done pending, Along source done pending r) (c : Call) :
    ∃ done pending, Along source done pending (r.call c) := by
  cases c with
  | more =>
    obtain ⟨done, pending, h⟩ := h
    exact Ends.stateAfter ((h.more hlines).mono (fun _ _ hs => hs.1) (fun _ _ hs => hs))
  | advance => exact Ends.stateAfter (ends_advance hlines h)

/-- So do any calls, one after the other. -/
theorem exists_along_after (h : ∃ done pending, Along source done pending r) (calls : List Call) :
    ∃ done pending, Along source done pending (r.after calls) := by
  induction calls generalizing r with
  | nil => exact h
  | cons c calls ih => exact ih (exists_along_call hlines h c)

/-- What is found stands at the beginning of what is left of a reading, in the place of the reader. -/
theorem Gives.exists_along {piece : Piece} {u : Reader} (h : Gives r piece u)
    (hr : ∃ done pending, Along source done pending r) :
    ∃ done pending s, Along source done pending s ∧ s.rest ≠ [] ∧ u.source = s.source ∧
      s.rest = piece.text.toList ++ u.rest ∧ piece.start = s.position ∧
        piece.stop = piece.start.right piece.text.toList.length := by
  obtain ⟨done, pending, hr⟩ := hr
  cases hmore : more r with
  | error e s =>
    have hadvance := advance_of_more_error hmore
    cases h with
    | lexeme next => cases hadvance.symm.trans next
    | malformed next =>
      cases hadvance.symm.trans next
      exact absurd hmore (more_ne_malformed r _ _ _)
  | ok found s =>
    obtain ⟨⟨done, pending, hs⟩, hrest⟩ := (hr.more hlines).of_ok hmore
    have hadvance := advance_of_more hmore
    refine ⟨done, pending, s, hs, ?_⟩
    cases found with
    | false =>
      cases h with
      | lexeme next => cases hadvance.symm.trans next
      | malformed next => cases hadvance.symm.trans next
    | true =>
      refine ⟨hrest rfl, ?_⟩
      cases h with
      | lexeme next =>
        obtain ⟨text, hrest, hsource, -, htext, hspan⟩ :=
          (ends_take s).of_ok (hadvance.symm.trans next)
        rw [htext, hspan]
        exact ⟨hsource, by rw [Piece.text, String.toList_ofList, hrest], rfl,
          by rw [Piece.text, String.toList_ofList]; rfl⟩
      | malformed next =>
        obtain ⟨text, hrest, hsource, -, hfound⟩ :=
          (ends_take s).of_error (hadvance.symm.trans next)
        obtain ⟨rfl, rfl, hlength⟩ := hfound _ _ rfl
        exact ⟨hsource, by rw [Piece.text, String.toList_ofList, hrest], rfl,
          by rw [Piece.text, String.toList_ofList, hlength]; rfl⟩

end Calls

end Reader

/-! ## One read after the other -/

/-- Every part has an element, and only its last one may satisfy `p`. It does so if a part follows. -/
theorem Text.Parts.exists_body {α : Type} {p : α → Bool} {earlier later : List (List α)}
    {part : List α} (h : Parts p (earlier ++ part :: later)) :
    ∃ body x, part = body ++ [x] ∧ (∀ y ∈ body, p y = false) ∧ (later ≠ [] → p x = true) := by
  induction earlier with
  | nil =>
    cases h with
    | last hne hpart =>
      obtain ⟨body, x, rfl⟩ := (List.eq_nil_or_concat part).resolve_left hne
      rw [List.concat_eq_append] at hpart ⊢
      exact ⟨body, x, rfl, fun y hy => hpart y (List.mem_append_left _ hy), fun h => absurd rfl h⟩
    | @cons body x _ hbody hx _ => exact ⟨body, x, rfl, hbody, fun _ => hx⟩
  | cons first earlier ih =>
    rw [List.cons_append] at h
    generalize hparts : earlier ++ part :: later = parts at h
    cases h with
    | last => exact absurd hparts (by simp)
    | cons _ _ hrest => exact ih (hparts ▸ hrest)

namespace Source

variable {fault : Option String}

/-- A read is broken off by a failure, or by the fault if the bytes end before a line feed. -/
def BrokenOff (fault : Option String) (stretch : List Delivery) : Prop :=
  (∃ cause, .failure cause ∈ stretch) ∨
    fault.isSome ∧ (Delivery.bytes stretch).any isLineFeed = false

theorem isLine_readingOfLine (part : List UInt8) :
    (readingOfLine part).isLine = true ↔ ∃ text, encode text = part := by
  rw [readingOfLine]
  cases hdecode : decode part with
  | some text => exact ⟨fun _ => ⟨text, encode_of_decode hdecode⟩, fun _ => rfl⟩
  | none =>
    refine ⟨fun hline => absurd hline Bool.false_ne_true, ?_⟩
    rintro ⟨text, rfl⟩
    rw [decode_encode] at hdecode
    cases hdecode

/-- What a read hands over is the text of its bytes, unless they are lost. -/
theorem encode_text_readingOfStretch {stretch : List Delivery}
    (h : (readingOfStretch fault stretch).isLine = true ∨
      (readingOfStretch fault stretch).text ≠ []) :
    encode (readingOfStretch fault stretch).text = Delivery.bytes stretch := by
  have hline : ∀ part, (readingOfLine part).isLine = true ∨ (readingOfLine part).text ≠ [] →
      encode (readingOfLine part).text = part := by
    intro part
    rw [readingOfLine]
    cases hdecode : decode part with
    | some text => exact fun _ => encode_of_decode hdecode
    | none => exact fun hkept => (hkept.resolve_left Bool.false_ne_true rfl).elim
  have hbreak : ∀ part cause, (readingOfBreak part cause).isLine = true ∨
      (readingOfBreak part cause).text ≠ [] → encode (readingOfBreak part cause).text = part := by
    intro part cause
    rw [readingOfBreak]
    cases hdecode : decode part with
    | some text => exact fun _ => encode_of_decode hdecode
    | none => exact fun hkept => (hkept.resolve_left Bool.false_ne_true rfl).elim
  revert h
  unfold readingOfStretch
  split
  · exact hbreak _ _
  · unfold readingOf
    split
    · exact hline _
    · split
      · exact hline _
      · exact hbreak _ _

section Stretch

variable {body : List Delivery} (hbody : ∀ d ∈ body, d.endsRead = false)
include hbody

theorem isLineFeed_of_mem_bytes : ∀ byte ∈ Delivery.bytes body, isLineFeed byte = false := by
  intro byte hbyte
  obtain ⟨d, hd, hvalue⟩ := List.mem_filterMap.mp hbyte
  cases d with
  | byte value =>
    cases hvalue
    exact hbody _ hd
  | failure cause => cases hvalue

theorem not_exists_failure (value : UInt8) :
    ¬ ∃ cause, Delivery.failure cause ∈ body ++ [.byte value] := by
  rintro ⟨cause, hmem⟩
  obtain hmem | hmem := List.mem_append.mp hmem
  · cases hbody _ hmem
  · cases List.mem_singleton.mp hmem

/-- A line is read just if the read is not broken off and its bytes are a text. -/
theorem isLine_readingOfStretch (d : Delivery) :
    (readingOfStretch fault (body ++ [d])).isLine = true ↔
      ¬ BrokenOff fault (body ++ [d]) ∧ ∃ text, encode text = Delivery.bytes (body ++ [d]) := by
  rw [readingOfStretch, List.getLast?_concat]
  cases d with
  | failure cause =>
    refine ⟨nofun, fun h => absurd (.inl ⟨cause, ?_⟩) h.1⟩
    exact List.mem_append_right _ List.mem_cons_self
  | byte value =>
    simp only [BrokenOff, not_exists_failure hbody value, false_or]
    cases fault with
    | none => simp [readingOf, isLine_readingOfLine]
    | some cause =>
      simp only [readingOf, Option.isSome_some, true_and, Bool.not_eq_false]
      split
      · next hfeed => simp [isLine_readingOfLine, hfeed]
      · next hfeed => simp [readingOfBreak, Reading.isLine, hfeed]

variable (fault) in
/-- A line feed that was handed over ends its line, but it counts as one only if the line was read. -/
theorem countP_lineFeed_bytes {d : Delivery} (hd : d.endsRead = true) :
    (Delivery.bytes (body ++ [d])).countP isLineFeed =
        (if (Delivery.bytes (body ++ [d])).any isLineFeed then 1 else 0) ∧
      ((readingOfStretch fault (body ++ [d])).isLine = true ↔
        (Delivery.bytes (body ++ [d])).any isLineFeed = true ∧
          ∃ text, encode text = Delivery.bytes (body ++ [d])) := by
  have hfeed := isLineFeed_of_mem_bytes hbody
  have hcount : (Delivery.bytes body).countP isLineFeed = 0 :=
    List.countP_eq_zero.mpr fun byte hbyte => by simp [hfeed byte hbyte]
  have hany : (Delivery.bytes body).any isLineFeed = false :=
    List.any_eq_false.mpr fun byte hbyte => by simp [hfeed byte hbyte]
  rw [isLine_readingOfStretch hbody, Delivery.bytes_append, List.countP_append, List.any_append,
    hcount, hany]
  cases d with
  | byte value =>
    have hvalue : isLineFeed value = true := hd
    have hno : ¬ BrokenOff fault (body ++ [.byte value]) := by
      rintro (hfailure | ⟨-, hno⟩)
      · exact not_exists_failure hbody value hfailure
      · rw [Delivery.bytes_append, List.any_append] at hno
        simp [Delivery.bytes, Delivery.byte?, hvalue] at hno
    simp [Delivery.bytes, Delivery.byte?, hvalue, hno]
  | failure cause =>
    have hbroken : BrokenOff fault (body ++ [.failure cause]) :=
      .inl ⟨cause, List.mem_append_right _ List.mem_cons_self⟩
    simp [Delivery.bytes, Delivery.byte?, hbroken]

end Stretch

/-- No line is empty. -/
theorem line_nil_not_mem (deliveries : List Delivery) (fault : Option String) :
    Reading.line [] ∉ (ofDeliveries deliveries fault).pending := by
  intro hmem
  obtain ⟨stretch, hstretch, hline⟩ := List.mem_map.mp hmem
  obtain ⟨earlier, later, hsplit⟩ := List.append_of_mem hstretch
  have hparts := Text.parts_splitAfter Delivery.endsRead deliveries
  rw [← stretches, hsplit] at hparts
  obtain ⟨body, d, rfl, hbody, -⟩ := hparts.exists_body
  have hread : (readingOfStretch fault (body ++ [d])).isLine = true := by
    rw [hline]
    rfl
  have hbytes := encode_text_readingOfStretch (.inl hread)
  rw [hline, Delivery.bytes_append] at hbytes
  cases d with
  | byte value => simp [encode, Reading.text, Delivery.bytes, Delivery.byte?] at hbytes
  | failure cause =>
    refine ((isLine_readingOfStretch hbody _).mp hread).1 (.inl ⟨cause, ?_⟩)
    exact List.mem_append_right _ List.mem_cons_self

variable (fault) in
/-- No more lines are counted than there were, and as many only if all of them were read. -/
theorem line_counted_stretches {earlier : List (List Delivery)}
    (h : ∀ stretch ∈ earlier, ∃ body d, stretch = body ++ [d] ∧
      (∀ y ∈ body, y.endsRead = false) ∧ d.endsRead = true) :
    (earlier.map (readingOfStretch fault)).countP Reading.isLine ≤
        (earlier.flatMap Delivery.bytes).countP isLineFeed ∧
      ((earlier.map (readingOfStretch fault)).countP Reading.isLine =
          (earlier.flatMap Delivery.bytes).countP isLineFeed ↔
        ∀ stretch ∈ earlier, (Delivery.bytes stretch).any isLineFeed = true →
          ∃ text, encode text = Delivery.bytes stretch) := by
  induction earlier with
  | nil => exact ⟨Nat.le_refl _, fun _ => nofun, fun _ => rfl⟩
  | cons stretch earlier ih =>
    obtain ⟨hle, heq⟩ := ih fun s hs => h s (List.mem_cons_of_mem _ hs)
    obtain ⟨body, d, hstretch, hbody, hd⟩ := h stretch List.mem_cons_self
    obtain ⟨hcount, hline⟩ := countP_lineFeed_bytes fault hbody hd
    rw [← hstretch] at hcount hline
    rw [List.map_cons, List.countP_cons, List.flatMap_cons, List.countP_append,
      List.forall_mem_cons, ← heq]
    by_cases hfeed : (Delivery.bytes stretch).any isLineFeed = true
    · rw [if_pos hfeed] at hcount
      by_cases htext : ∃ text, encode text = Delivery.bytes stretch
      · rw [hcount, if_pos (hline.mpr ⟨hfeed, htext⟩)]
        simp only [htext, implies_true, true_and]
        omega
      · rw [hcount, if_neg fun hread => htext (hline.mp hread).2]
        simp only [hfeed, htext, true_implies, false_and, iff_false]
        omega
    · rw [if_neg hfeed] at hcount
      rw [hcount, if_neg fun hread => hfeed (hline.mp hread).1]
      simp only [hfeed, Bool.false_eq_true, false_implies, true_and]
      omega

end Source

/-! ## What is found -/

/-- The reader counts the place of what is read in a stretch of deliveries, after earlier ones, as the
bytes do. -/
structure InStep (fault : Option String) (earlier : List (List Delivery)) (stretch : List Delivery) :
    Prop where
  /-- The line was read to its end. -/
  whole : ¬ Source.BrokenOff fault stretch
  /-- It was read from its beginning. -/
  begins : Text.Whole Source.isLineFeed (earlier.flatMap Delivery.bytes)
  /-- No line before it was lost for being no text. -/
  texts : ∀ line ∈ earlier, (Delivery.bytes line).any Source.isLineFeed = true →
    ∃ text, Source.encode text = Delivery.bytes line

section Found

variable {fault : Option String} {earlier later : List (List Delivery)} {stretch : List Delivery}
variable (hparts : Text.Parts Delivery.endsRead (earlier ++ stretch :: later))
include hparts

/-- Only the last character of a stretch may be a line feed. -/
theorem lineFeed_not_mem_of_stretch {x rest : List Char}
    (hbytes : Source.encode (x ++ rest) = Delivery.bytes stretch) (hrest : rest ≠ []) : '\n' ∉ x := by
  obtain ⟨body, d, rfl, hbody, -⟩ := hparts.exists_body
  intro hmem
  have hx : Source.encode x <+: Delivery.bytes body := by
    rw [Delivery.bytes_append, Source.encode_append] at hbytes
    refine List.prefix_of_prefix_length_le ⟨_, hbytes⟩ (List.prefix_append _ _) ?_
    have hlength := congrArg List.length hbytes
    have hone : (Delivery.bytes [d]).length ≤ 1 := List.length_filterMap_le _ _
    have hpos : 0 < (Source.encode rest).length := by
      obtain ⟨c, more, rfl⟩ := List.exists_cons_of_ne_nil hrest
      rw [Source.encode, List.flatMap_cons, List.length_append]
      exact Nat.add_pos_left (List.length_pos_iff.mpr String.utf8EncodeChar_ne_nil) _
    rw [List.length_append, List.length_append] at hlength
    omega
  have hfeed : (10 : UInt8) ∈ Source.encode x := List.mem_flatMap.mpr ⟨'\n', hmem, by decide⟩
  have hno := Source.isLineFeed_of_mem_bytes hbody 10 (hx.subset hfeed)
  exact absurd hno (by decide)

/-- The place that is counted is the place of the bytes just if the two are in step. -/
theorem afterBytes?_iff_inStep {x rest : List Char} {place : Position}
    (htext : (Source.readingOfStretch fault stretch).text = x ++ rest) (hrest : rest ≠ [])
    (hbytes : Source.encode (x ++ rest) = Delivery.bytes stretch)
    (hplace : (Position.counted (earlier.map (Source.readingOfStretch fault))).past
      (Source.readingOfStretch fault stretch) = place.right rest.length) :
    Position.afterBytes? (earlier.flatMap Delivery.bytes ++ Source.encode x) = some place ↔
      InStep fault earlier stretch := by
  have hx := lineFeed_not_mem_of_stretch hparts hbytes hrest
  have hread : (Source.readingOfStretch fault stretch).isLine = true ↔
      ¬ Source.BrokenOff fault stretch := by
    obtain ⟨body, d, rfl, hbody, -⟩ := hparts.exists_body
    rw [Source.isLine_readingOfStretch hbody, and_iff_left ⟨_, hbytes⟩]
  have hended : ∀ stretch ∈ earlier, ∃ body d, stretch = body ++ [d] ∧
      (∀ y ∈ body, y.endsRead = false) ∧ d.endsRead = true := by
    intro s hs
    obtain ⟨first, last, rfl⟩ := List.append_of_mem hs
    rw [List.append_assoc, List.cons_append] at hparts
    obtain ⟨body, d, hs, hbody, hd⟩ := hparts.exists_body
    exact ⟨body, d, hs, hbody, hd (by simp)⟩
  obtain ⟨hle, heq⟩ := Source.line_counted_stretches fault hended
  rw [← Position.line_counted] at hle heq
  generalize Position.counted (earlier.map (Source.readingOfStretch fault)) = count at hle heq hplace
  cases hreading : Source.readingOfStretch fault stretch with
  | line text =>
    -- the line was read as a whole, and its place is counted from its beginning
    rw [hreading] at htext hplace hread
    obtain rfl : text = x ++ rest := htext
    obtain rfl : place = ⟨count.line + 1, 1 + x.length⟩ := by
      obtain ⟨line, column⟩ := place
      obtain ⟨rfl, hcolumn⟩ := Position.mk.inj hplace
      rw [List.length_append, ← Nat.add_assoc] at hcolumn
      rw [Nat.add_right_cancel hcolumn]
    rw [Position.afterBytes?_append_iff hx, Nat.add_comm 1, Nat.add_right_cancel_iff, heq]
    exact ⟨fun h => ⟨hread.mp rfl, h.2, h.1⟩, fun h => ⟨h.texts, h.begins⟩⟩
  | failed kept cause =>
    -- the place is counted on from the line before
    rw [hreading] at hplace hread
    refine ⟨fun hafter => ?_, fun h => absurd (hread.mpr h.whole) nofun⟩
    obtain ⟨_, -, rfl⟩ := Option.map_eq_some_iff.mp hafter
    have hline : count.line = 1 + List.countP Source.isLineFeed _ := congrArg Position.line hplace
    rw [List.countP_append] at hline
    omega

end Found

/-- Where a reader has found a piece among some deliveries: in a stretch after earlier ones, behind the
text `before`. -/
structure Reader.FoundIn (deliveries : List Delivery) (fault : Option String) (piece : Piece)
    (r : Reader) (earlier : List (List Delivery)) (stretch : List Delivery) (before : List Char) :
    Prop where
  /-- What is left to read is what comes after the stretch. -/
  stretches : ∃ later, Source.stretches deliveries = earlier ++ stretch :: later ∧
    r.source = some ⟨later.map (Source.readingOfStretch fault), fault⟩
  /-- What is left of the line is what comes after the piece in the stretch. -/
  bytes : Delivery.bytes stretch = Source.encode (before ++ (piece.text.toList ++ r.rest))
  /-- The piece ends as far to the right as it has characters. -/
  stop : piece.stop = piece.start.right piece.text.toList.length

/-- Whatever calls came before, and however many of them failed, what a reader finds begins in the place
of the bytes just if the reader is in step with them: the line was read from its beginning to its end in
one go, and every line before it was a text. -/
theorem found_in_step (p : Pattern) (deliveries : List Delivery) (fault : Option String)
    (calls : List Reader.Call) {piece : Piece} {r : Reader}
    (h : ((Reader.ofSource p (Source.ofDeliveries deliveries fault)).after calls).Gives piece r) :
    ∃ earlier stretch before, r.FoundIn deliveries fault piece earlier stretch before ∧
      (Position.afterBytes? (earlier.flatMap Delivery.bytes ++ Source.encode before) =
        some piece.start ↔ InStep fault earlier stretch) := by
  obtain ⟨done, pending, s, hs, hrest, hsource, hfound, hstart, hstop⟩ :=
    h.exists_along (Source.line_nil_not_mem deliveries fault) <|
      Reader.exists_along_after (Source.line_nil_not_mem deliveries fault)
        ⟨_, _, Reader.along_ofSource p _⟩ calls
  obtain ⟨x, hx⟩ := hs.rest
  rcases List.eq_nil_or_concat done with rfl | ⟨before, reading, rfl⟩
  · exact absurd (List.append_eq_nil_iff.mp hx).2 hrest
  rw [List.concat_eq_append] at hs hx
  rw [List.getLast?_concat] at hx
  -- the readings that are done are those of the first stretches
  have hreadings := hs.readings
  rw [Source.ofDeliveries, List.map_eq_append_iff] at hreadings
  obtain ⟨first, later, hstretches, hfirst, rfl⟩ := hreadings
  obtain ⟨earlier, last, rfl, rfl, hlast⟩ := List.map_eq_append_iff.mp hfirst
  obtain ⟨stretch, rfl, rfl⟩ := List.map_eq_singleton_iff.mp hlast
  rw [List.append_assoc, List.singleton_append] at hstretches
  have htext : (Source.readingOfStretch fault stretch).text = x ++ s.rest := hx.symm
  have hbytes : Source.encode (x ++ s.rest) = Delivery.bytes stretch := by
    rw [← htext]
    refine Source.encode_text_readingOfStretch (.inr ?_)
    rw [htext]
    exact List.append_ne_nil_of_right_ne_nil _ hrest
  have hplace := hs.place
  rw [Position.counted_concat] at hplace
  have hparts := Text.parts_splitAfter Delivery.endsRead deliveries
  rw [← Source.stretches, hstretches] at hparts
  refine ⟨earlier, stretch, x, ⟨?_, ?_, hstop⟩, ?_⟩
  · exact ⟨later, hstretches, hsource.trans hs.source_eq⟩
  · rw [← hbytes, hfound]
  · rw [hstart]
    exact afterBytes?_iff_inStep hparts htext hrest hbytes hplace

/-- For example what stands in the line after one that was broken off. -/
theorem found_in_step_of_next_line :
    let deliveries : List Delivery := [.byte 120, .failure "device lost", .byte 10, .byte 121]
    let r := (Reader.ofSource Lexicon.standard.pattern (Source.ofDeliveries deliveries none)).after
      [.advance, .advance, .advance]
    let piece : Piece := .lexeme "y" (some .identifier) ⟨⟨2, 1⟩, ⟨2, 2⟩⟩
    let s := stateAfter Reader.advance r
    r.Gives piece s ∧ ∃ earlier stretch before,
      s.FoundIn deliveries none piece earlier stretch before ∧
        (Position.afterBytes? (earlier.flatMap Delivery.bytes ++ Source.encode before) =
          some piece.start ↔ InStep none earlier stretch) := by
  intro deliveries r piece s
  have h : r.Gives piece s := .lexeme (s := stateAfter Reader.advance r) (by cbv)
  exact ⟨h, found_in_step Lexicon.standard.pattern deliveries none [.advance, .advance, .advance] h⟩

/-- But the word of a line that was broken off is said to stand before the first line. -/
theorem found_out_of_step :
    let r := (Reader.ofSource Lexicon.standard.pattern
      (Source.ofDeliveries [.byte 97] (some "boom"))).after [.advance]
    let piece : Piece := .lexeme "a" (some .identifier) ⟨⟨0, 1⟩, ⟨0, 2⟩⟩
    (∃ s, r.Gives piece s) ∧ ∀ before rest,
      Source.encode (before ++ (piece.text.toList ++ rest)) = Delivery.bytes [.byte 97] →
        Position.afterBytes? (Source.encode before) ≠ some piece.start := by
  intro r piece
  have h : r.Gives piece (stateAfter Reader.advance r) :=
    .lexeme (s := stateAfter Reader.advance r) (by cbv)
  refine ⟨⟨_, h⟩, fun before rest _ hplace => ?_⟩
  rw [Position.afterBytes?_encode, Option.some_inj] at hplace
  have hline : 1 + before.count '\n' = 0 := congrArg Position.line hplace
  omega

end ListScript
