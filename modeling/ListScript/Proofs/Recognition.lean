import ListScript.Proofs.ParserSoundness

/-!
# The parser recognizes the grammar

A source whose tokens can be read up to the end of the text holds a program if and only if the
grammar derives its tokens, and the program is the tree of the only derivation.

* `parse_of_derivation` : a program that the grammar derives is found;
* `parse_recognizes` : no other is, and there is only one derivation.
-/

namespace ListScript

/-- A program whose tokens a source gives is read from it. -/
theorem parse_of_derivation {source : Source} {tokens : List Token}
    (h : (TokenStream.ofSource Lexicon.standard source).items = tokens.map .ok)
    (d : ProgramPhrase) (hd : d.tokens = tokens) :
    ∃ s, parse (TokenStream.ofSource Lexicon.standard source) = .ok d.tree s := by
  obtain ⟨k, u, us, last, s', hadv, hu, rfl, hreads, hlast, hended⟩ := TokenStream.reads_of_items h
  have hstart : Parser.start (TokenStream.ofSource Lexicon.standard source) = .ok () u :=
    Parser.start_eq_ok.mpr (.inr ⟨rfl, k, hadv⟩)
  have hend : last.kind = .endOfText := ((hreads.standard hu).ended_iff last hlast).mp hended
  obtain ⟨rfl, -⟩ := List.append_inj' hd rfl
  exact ⟨s', Parser.program_of_phrase d.body hu hstart hreads hlast hend⟩

/-- What the parser reads from the tokens of a source are the trees of the derivations of these
tokens. No two derivations derive them, and none of their literals lacks its content. -/
theorem parse_recognizes {source : Source} {tokens : List Token}
    (h : (TokenStream.ofSource Lexicon.standard source).items = tokens.map .ok) :
    (∀ program, (∃ s, parse (TokenStream.ofSource Lexicon.standard source) = .ok program s) ↔
      ∃ d : ProgramPhrase, d.tokens = tokens ∧ d.tree = program) ∧
    (∀ d d' : ProgramPhrase, d.tokens = tokens → d'.tokens = tokens → d = d') ∧
    ∀ t ∈ tokens, t.HasContent := by
  obtain ⟨k, u, us, last, s', hadv, hu, rfl, hreads, hlast, hended⟩ := TokenStream.reads_of_items h
  have hstart : Parser.start (TokenStream.ofSource Lexicon.standard source) = .ok () u :=
    Parser.start_eq_ok.mpr (.inr ⟨rfl, k, hadv⟩)
  have hs' := hreads.standard hu
  have hend : last.kind = .endOfText := (hs'.ended_iff last hlast).mp hended
  refine ⟨fun program => ⟨?_, ?_⟩, ?_, ?_⟩
  · rintro ⟨s, hs⟩
    obtain ⟨d, t, rfl, hd, ht⟩ := Parser.program_sound hu hstart hs
    -- Both readings stop at the end of the text, so neither goes on after the other.
    have hsame : d.tokens = us ∧ last = t.1 := by
      obtain ⟨vs, rfl, hvs⟩ | ⟨vs, hvs, hmore⟩ := hd.comparable hreads
      · have hsended : s.ended = true := ((hd.standard hu).ended_iff t.1 ht).mpr t.2
        obtain ⟨rfl, rfl⟩ := hvs.eq_nil_of_ended hsended
        exact ⟨(List.append_nil _).symm, Option.some.inj (hlast.symm.trans ht)⟩
      · obtain ⟨rfl, rfl⟩ := hmore.eq_nil_of_ended hended
        exact ⟨by rw [hvs, List.append_nil], Option.some.inj (hlast.symm.trans ht)⟩
    exact ⟨⟨d, t⟩, by rw [ProgramPhrase.tokens, hsame.1, hsame.2], rfl⟩
  · rintro ⟨d, htokens, rfl⟩
    exact parse_of_derivation h d htokens
  · exact fun d d' hd hd' => ProgramPhrase.eq_of_tokens_eq (hd.trans hd'.symm)
  · intro t ht
    obtain ht | ht := List.mem_append.mp ht
    · exact hreads.content hu t ht
    · obtain rfl := List.mem_singleton.mp ht
      exact hs'.content t hlast

/-- The tokens of `print 1`. -/
def tokensOfPrint : List Token :=
  [⟨.printWord, "print", ⟨⟨1, 1⟩, ⟨1, 6⟩⟩, none⟩,
   ⟨.numeral, "1", ⟨⟨1, 7⟩, ⟨1, 8⟩⟩, some (.int 1)⟩, Token.endOfText ⟨1, 8⟩]

/-- The tokens of this text can be read to the end. -/
theorem parse_recognizes_print :
    (TokenStream.ofSource Lexicon.standard (Source.ofText "print 1")).items =
      tokensOfPrint.map .ok ∧
    (∀ program, (∃ s, parse (TokenStream.ofSource Lexicon.standard (Source.ofText "print 1")) =
        .ok program s) ↔ ∃ d : ProgramPhrase, d.tokens = tokensOfPrint ∧ d.tree = program) ∧
    (∀ d d' : ProgramPhrase, d.tokens = tokensOfPrint → d'.tokens = tokensOfPrint → d = d') ∧
    ∀ t ∈ tokensOfPrint, t.HasContent := by
  have h : (TokenStream.ofSource Lexicon.standard (Source.ofText "print 1")).items =
      tokensOfPrint.map .ok := by cbv
  exact ⟨h, parse_recognizes h⟩

end ListScript
