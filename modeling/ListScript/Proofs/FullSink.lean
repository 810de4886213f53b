import ListScript.Proofs.UnmentionedNames

/-!
# Output that does not fit

A sink with room for so many bytes cuts the output of a program there, and changes nothing else.

* `Sink.take_append`, `Value.write_pieces` : a sink takes the pieces of a text one after the other as
  it takes the whole text at once, so the cut may be anywhere in a printed value;
* `Block.ends_sink` : what every step of a writer keeps true of it, a whole run keeps true;
* `Machine.InStep` : a machine with room for everything and one with room for `room` bytes, which
  have taken the same bytes;
* `CutAlike` : two runs that end alike with such machines, or of which the second was cut off when it
  had no room left, and the first has gone on (`CutAlike.bind`, `CutAlike.output`);
* `Stmt.cutAlike_run`, `Block.cutAlike_run`, `Block.cutAlike_execute` : any run with room for
  everything, and with room for some bytes.
-/

namespace ListScript

/-! ## Pieces of output -/

theorem toList_loop (bytes : ByteArray) (i : Nat) (r : List UInt8) :
    ByteArray.toList.loop bytes i r = r.reverse ++ bytes.data.toList.drop i := by
  fun_induction ByteArray.toList.loop bytes i r with
  | case1 i r h ih =>
    have hi : i < bytes.data.toList.length := h
    have hget : bytes.get! i = bytes.data.toList[i] := by
      show bytes.data[i]! = _
      rw [getElem!_pos bytes.data i hi, Array.getElem_toList]
    rw [ih, List.drop_eq_getElem_cons hi, hget, List.reverse_cons, List.append_assoc]
    rfl
  | case2 i r h =>
    have hi : bytes.data.toList.length ≤ i := Nat.le_of_not_lt h
    rw [List.drop_of_length_le hi, List.append_nil]

theorem Text.toList_bytes (text : String) : text.toUTF8.toList = text.toUTF8.data.toList :=
  toList_loop text.toUTF8 0 []

theorem Text.bytes_append (text more : String) :
    (text ++ more).toUTF8.toList = text.toUTF8.toList ++ more.toUTF8.toList := by
  rw [toList_bytes, toList_bytes, toList_bytes, ← ByteArray.toList_data_append]
  exact congrArg (·.data.toList) String.toByteArray_append

theorem append_list_append (bytes : Array UInt8) (more rest : List UInt8) :
    bytes ++ (more ++ rest) = bytes ++ more ++ rest :=
  Array.toList_inj.mp (by simp)

namespace Sink

@[simp] theorem take_nil : (take [] : EStateM String Sink Unit) = pure () := by
  funext s
  obtain ⟨written, room, flushFails⟩ := s
  cases room with
  | none => simp [take, pure, EStateM.pure]
  | some room => simp [take, pure, EStateM.pure]

theorem take_of_le {bytes : List UInt8} {written : Array UInt8} {room : Nat} {flushFails : Bool}
    (h : bytes.length ≤ room) : take bytes ⟨written, some room, flushFails⟩ =
      .ok () ⟨written ++ bytes, some (room - bytes.length), flushFails⟩ := by
  simp [take, h, List.take_of_length_le h]

theorem take_of_lt {bytes : List UInt8} {written : Array UInt8} {room : Nat} {flushFails : Bool}
    (h : room < bytes.length) : take bytes ⟨written, some room, flushFails⟩ =
      .error full ⟨written ++ bytes.take room, some 0, flushFails⟩ := by
  have hleft : room - bytes.length = 0 := by omega
  simp [take, h, hleft]

/-- Taking some bytes and then more is taking all of them, whether there is room for them or not. -/
theorem take_append (bytes more : List UInt8) :
    take (bytes ++ more) = take bytes >>= fun _ => take more := by
  funext s
  obtain ⟨written, room, flushFails⟩ := s
  show _ = EStateM.bind (take bytes) (fun _ => take more) _
  unfold EStateM.bind
  cases room with
  | none => simp [take, append_list_append]
  | some room =>
    by_cases hfit : bytes.length ≤ room
    · rw [take_of_le hfit]
      by_cases hmore : more.length ≤ room - bytes.length
      · have hall : (bytes ++ more).length ≤ room := by rw [List.length_append]; omega
        rw [take_of_le hall]
        dsimp only
        rw [take_of_le hmore, append_list_append, List.length_append, Nat.sub_sub]
      · have hall : room < (bytes ++ more).length := by rw [List.length_append]; omega
        rw [take_of_lt hall]
        dsimp only
        rw [take_of_lt (Nat.lt_of_not_le hmore), List.take_append, List.take_of_length_le hfit,
          append_list_append]
    · have hcut : room < bytes.length := Nat.lt_of_not_le hfit
      have hall : room < (bytes ++ more).length := by rw [List.length_append]; omega
      rw [take_of_lt hcut, take_of_lt hall, List.take_append_of_le_length hcut.le]

/-- Writes some texts one after the other. -/
def writeAll : List String → EStateM String Sink Unit
  | [] => pure ()
  | piece :: rest => do
    Writer.write piece
    writeAll rest

/-- Writing some texts one after the other is writing all of them at once. -/
theorem writeAll_eq (pieces : List String) : writeAll pieces = Writer.write (String.join pieces) := by
  induction pieces with
  | nil =>
    show pure () = take "".toUTF8.toList
    rw [Text.toList_bytes]
    exact take_nil.symm
  | cons piece rest ih =>
    have hbytes : (String.join (piece :: rest)).toUTF8.toList =
        piece.toUTF8.toList ++ (String.join rest).toUTF8.toList := by
      rw [String.join_cons, Text.bytes_append]
    calc writeAll (piece :: rest) = Writer.write piece >>= fun _ => writeAll rest := rfl
      _ = take piece.toUTF8.toList >>= fun _ => take (String.join rest).toUTF8.toList := by
        rw [ih]
        rfl
      _ = Writer.write (String.join (piece :: rest)) := by
        rw [← take_append, ← hbytes]
        rfl

end Sink

mutual

/-- The pieces in which a value is written. -/
def Value.pieces : Value → List String
  | .int value => [toString value.toInt]
  | .bool value => [toString value]
  | .string value => [value]
  | .list [] => ["[", "]"]
  | .list (item :: rest) => "[" :: (item.pieces ++ Value.piecesAfter rest ++ ["]"])
  | .option (some content) => "opt " :: content.pieces
  | .option none => ["empty"]

/-- The pieces in which the further elements of a list are written. -/
def Value.piecesAfter : List Value → List String
  | [] => []
  | item :: rest => ", " :: (item.pieces ++ Value.piecesAfter rest)

end

mutual

/-- The pieces of a value are those of its text. -/
theorem Value.join_pieces : ∀ v : Value, String.join v.pieces = v.text
  | .int _ | .bool _ | .string _ | .option none | .list [] => by
    simp [Value.pieces, Value.text, String.join]
  | .option (some content) => by
    simp [Value.pieces, Value.text, Value.join_pieces content]
  | .list (item :: rest) => by
    simp [Value.pieces, Value.text, Value.join_pieces item, Value.join_piecesAfter rest,
      String.append_assoc]

theorem Value.join_piecesAfter : ∀ items : List Value,
    String.join (Value.piecesAfter items) = Value.textAfter items
  | [] => rfl
  | item :: rest => by
    simp [Value.piecesAfter, Value.textAfter, Value.join_pieces item, Value.join_piecesAfter rest,
      String.append_assoc]

end

/-- A value that is printed in pieces may be printed at once. -/
theorem Value.write_pieces (v : Value) :
    Sink.writeAll (v.pieces ++ ["\n"]) = Writer.write (v.text ++ "\n") := by
  rw [Sink.writeAll_eq, String.join_append, v.join_pieces]
  rfl

/-! ## What a run keeps true of the writer -/

section

variable {σ α : Type} [Writer σ] {P : σ → Prop} {m : Machine σ}

/-- Whether the run succeeds or fails, `P` holds of the writer after it. -/
abbrev SinkEnds (P : σ → Prop) : EStateM.Result EvalError (Machine σ) α → Prop :=
  Ends (fun _ m => P m.sink) fun _ m => P m.sink

/-- Whatever is written, `P` still holds of the writer. -/
def Writer.Stays (P : σ → Prop) : Prop :=
  ∀ (piece : Option (List UInt8)) (s : σ), P s → Ends (fun _ => P) (fun _ => P) (answer piece s)

namespace Running

omit [Writer σ] in
theorem ends_eval (h : P m.sink) (e : Expr) : SinkEnds P (eval e m) := by
  unfold eval
  split
  · exact .ok h
  · exact .error h

omit [Writer σ] in
theorem ends_ofExcept (h : P m.sink) (x : Except EvalError α) : SinkEnds P (ofExcept x m) := by
  cases x with
  | ok a => exact .ok h
  | error e => exact .error h

omit [Writer σ] in
theorem ends_declare (h : P m.sink) (ident : Ident) (v : Value) : SinkEnds P (declare ident v m) := by
  unfold declare
  split
  · exact .ok h
  · exact .error h

omit [Writer σ] in
theorem ends_assign (h : P m.sink) (ident : Ident) (v : Value) : SinkEnds P (assign ident v m) := by
  unfold assign
  split
  · exact .ok h
  · exact .error h

theorem ends_output (hP : Writer.Stays P) (h : P m.sink) (piece : Option (List UInt8)) :
    SinkEnds P (output (Writer.answer piece) m) := by
  have hpiece := hP piece m.sink h
  unfold output
  cases hr : Writer.answer piece m.sink with
  | ok u sink => exact .ok (hpiece.of_ok hr)
  | error cause sink => exact .error (hpiece.of_error hr)

omit [Writer σ] in
theorem ends_inScope {body : Running σ Unit} (hbody : ∀ m, P m.sink → SinkEnds P (body m))
    (h : P m.sink) (name : String) (v : Value) : SinkEnds P (inScope name v body m) := by
  have hend := hbody { m with scopes := m.scopes.enterWith name v } h
  unfold inScope
  cases hr : body { m with scopes := m.scopes.enterWith name v } with
  | ok u after =>
    have hafter : P after.sink := hend.of_ok hr
    exact .ok hafter
  | error e after =>
    have hafter : P after.sink := hend.of_error hr
    exact .error hafter

omit [Writer σ] in
theorem ends_forEach {step : Value → Running σ Unit}
    (hstep : ∀ v m, P m.sink → SinkEnds P (step v m)) (values : List Value) (h : P m.sink) :
    SinkEnds P (forEach step values m) := by
  induction values generalizing m with
  | nil => exact .ok h
  | cons v rest ih => exact Ends.bind (hstep v m h) fun _ _ => ih

end Running

mutual

/-- What every step of a writer keeps true of it, a statement keeps true. -/
theorem Stmt.ends_sink (hP : Writer.Stays P) : ∀ (stmt : Stmt) {m : Machine σ}, P m.sink →
    SinkEnds P (stmt.run m)
  | .declare ident e, _, h =>
    Ends.bind (Running.ends_eval h e) fun v _ h => Running.ends_declare h ident v
  | .assign ident e, _, h =>
    Ends.bind (Running.ends_eval h e) fun v _ h => Running.ends_assign h ident v
  | .print e, _, h =>
    Ends.bind (Running.ends_eval h e) fun _ _ h => Running.ends_output hP h (some _)
  | .forEach ident e body, _, h => by
    apply Ends.bind (Running.ends_eval h e)
    intro list _ h
    apply Ends.bind (Running.ends_ofExcept h _)
    intro values _ h
    apply Running.ends_forEach _ values h
    intro v _ h
    exact Running.ends_inScope (fun _ => Block.ends_sink hP body) h ident.name v

theorem Block.ends_sink (hP : Writer.Stays P) : ∀ (block : Block) {m : Machine σ}, P m.sink →
    SinkEnds P (block.run m)
  | .one stmt, _, h => Stmt.ends_sink hP stmt h
  | .more stmt rest, _, h => Ends.bind (Stmt.ends_sink hP stmt h) fun _ _ => Block.ends_sink hP rest

end

end

/-! ## Two runs, one of them with less room -/

/-- The first machine has room for everything and the second for `room` bytes. Since they had taken
`w`, both have taken the same, and they have the same variables. -/
structure Machine.InStep (w : Array UInt8) (room : Nat) (m m' : Machine) : Prop where
  scopes : m'.scopes = m.scopes
  taken : ∃ out : List UInt8, out.length ≤ room ∧ m.sink = ⟨w ++ out, none, false⟩ ∧
    m'.sink = ⟨w ++ out, some (room - out.length), false⟩

/-- The sink has room for everything and has taken more than `w`. -/
def Sink.Beyond (w : Array UInt8) (s : Sink) : Prop :=
  ∃ more : List UInt8, more ≠ [] ∧ s = ⟨w ++ more, none, false⟩

theorem Sink.stays_beyond (w : Array UInt8) : Writer.Stays (Sink.Beyond w) := by
  rintro piece s ⟨more, hmore, rfl⟩
  cases piece with
  | none => exact .ok ⟨more, hmore, rfl⟩
  | some bytes =>
    refine .ok ⟨more ++ bytes, List.append_ne_nil_of_left_ne_nil hmore bytes, ?_⟩
    rw [append_list_append]

variable {w : Array UInt8} {room : Nat} {α β : Type}

/-- Two runs end alike with machines in step, or the second was cut off when it had taken `room`
bytes, and the first has gone on from there. -/
inductive CutAlike (w : Array UInt8) (room : Nat) :
    EStateM.Result EvalError Machine α → EStateM.Result EvalError Machine α → Prop
  | inStep {r r' : EStateM.Result EvalError Machine α} :
    EndAlike Eq (Machine.InStep w room) r r' → CutAlike w room r r'
  | cut {r : EStateM.Result EvalError Machine α} {m' : Machine} (out : List UInt8) :
    out.length = room → m'.sink.written = w ++ out → SinkEnds (Sink.Beyond (w ++ out)) r →
    CutAlike w room r (.error (.output Sink.full) m')

namespace CutAlike

/-- The two cases, for runs of any form. -/
theorem cases {r r' : EStateM.Result EvalError Machine α} (h : CutAlike w room r r') :
    EndAlike Eq (Machine.InStep w room) r r' ∨ ∃ (out : List UInt8) (m' : Machine),
      r' = .error (.output Sink.full) m' ∧ out.length = room ∧ m'.sink.written = w ++ out ∧
        SinkEnds (Sink.Beyond (w ++ out)) r := by
  cases h with
  | inStep halike => exact .inl halike
  | cut out hlength hwritten hr => exact .inr ⟨out, _, rfl, hlength, hwritten, hr⟩

variable {m m' : Machine}

/-- The second of two steps is taken in step if the first was. -/
theorem bind {x x' : Running Sink α} {f f' : α → Running Sink β}
    (hx : CutAlike w room (x m) (x' m'))
    (hf : ∀ a m m', Machine.InStep w room m m' → CutAlike w room (f a m) (f' a m'))
    (hbeyond : ∀ a m w, Sink.Beyond w m.sink → SinkEnds (Sink.Beyond w) (f a m)) :
    CutAlike w room ((x >>= f) m) ((x' >>= f') m') := by
  change CutAlike w room (EStateM.bind x f m) (EStateM.bind x' f' m')
  have hgoes {w : Array UInt8} (h : SinkEnds (Sink.Beyond w) (x m)) :
      SinkEnds (Sink.Beyond w) (EStateM.bind x f m) :=
    Ends.bind h fun a u hu => hbeyond a u w hu
  unfold EStateM.bind at hgoes ⊢
  generalize x m = r at hx hgoes ⊢
  generalize x' m' = r' at hx ⊢
  cases hx with
  | inStep halike =>
    cases halike with
    | ok hstep => exact hf _ _ _ hstep
    | error he hstep => exact .inStep (.error he hstep)
  | cut out hlength hwritten hr => exact .cut _ hlength hwritten (hgoes hr)

/-- A step that depends on the variables alone and leaves the sink as it is. -/
theorem eval (h : Machine.InStep w room m m') (e : Expr) :
    CutAlike w room (Running.eval e m) (Running.eval e m') := by
  unfold Running.eval
  rw [h.scopes]
  cases e.eval m.scopes with
  | ok v => exact .inStep (.ok h)
  | error err => exact .inStep (.error rfl h)

theorem ofExcept (h : Machine.InStep w room m m') (x : Except EvalError α) :
    CutAlike w room (Running.ofExcept x m) (Running.ofExcept x m') := by
  cases x with
  | ok a => exact .inStep (.ok h)
  | error err => exact .inStep (.error rfl h)

theorem declare (h : Machine.InStep w room m m') (ident : Ident) (v : Value) :
    CutAlike w room (Running.declare ident v m) (Running.declare ident v m') := by
  unfold Running.declare
  rw [h.scopes]
  cases m.scopes.declare? ident.name v with
  | some scopes => exact .inStep (.ok ⟨rfl, h.taken⟩)
  | none => exact .inStep (.error rfl h)

theorem assign (h : Machine.InStep w room m m') (ident : Ident) (v : Value) :
    CutAlike w room (Running.assign ident v m) (Running.assign ident v m') := by
  unfold Running.assign
  rw [h.scopes]
  cases m.scopes.update? ident.name v with
  | some scopes => exact .inStep (.ok ⟨rfl, h.taken⟩)
  | none => exact .inStep (.error rfl h)

/-- Some bytes are taken by both sinks, or there is room for a part of them only. -/
theorem output (h : Machine.InStep w room m m') (piece : Option (List UInt8)) :
    CutAlike w room (Running.output (Writer.answer piece) m)
      (Running.output (Writer.answer piece) m') := by
  obtain ⟨scopes, sink⟩ := m
  obtain ⟨scopes', sink'⟩ := m'
  obtain ⟨hscopes, out, hout, rfl, rfl⟩ := h
  obtain rfl : scopes' = scopes := hscopes
  cases piece with
  | none => exact .inStep (.ok ⟨rfl, out, hout, rfl, rfl⟩)
  | some bytes =>
    have hfree : Running.output (Sink.take bytes) ⟨scopes', ⟨w ++ out, none, false⟩⟩ =
        .ok () ⟨scopes', ⟨w ++ (out ++ bytes), none, false⟩⟩ := by
      rw [append_list_append]
      rfl
    show CutAlike w room (Running.output (Sink.take bytes) _) (Running.output (Sink.take bytes) _)
    rw [hfree]
    by_cases hfit : bytes.length ≤ room - out.length
    · rw [Running.output, Sink.take_of_le hfit]
      refine .inStep (.ok ⟨rfl, out ++ bytes, ?_, rfl, ?_⟩)
      · rw [List.length_append]
        omega
      · rw [append_list_append, List.length_append, Nat.sub_sub]
    · have hcut : room - out.length < bytes.length := Nat.lt_of_not_le hfit
      have hrest : bytes.drop (room - out.length) ≠ [] := by
        rw [ne_eq, List.drop_eq_nil_iff]
        omega
      rw [Running.output, Sink.take_of_lt hcut]
      refine .cut (out ++ bytes.take (room - out.length)) ?_ ?_ (.ok ⟨_, hrest, ?_⟩)
      · rw [List.length_append, List.length_take]
        omega
      · rw [append_list_append]
      · rw [← append_list_append, List.append_assoc, List.take_append_drop]

theorem inScope {body body' : Running Sink Unit} (name : String) (v : Value)
    (hbody : CutAlike w room (body { m with scopes := m.scopes.enterWith name v })
      (body' { m' with scopes := m'.scopes.enterWith name v })) :
    CutAlike w room (Running.inScope name v body m) (Running.inScope name v body' m') := by
  unfold Running.inScope
  generalize body _ = r at hbody ⊢
  generalize body' _ = r' at hbody ⊢
  cases hbody with
  | inStep halike =>
    cases halike with
    | ok h => exact .inStep (.ok ⟨congrArg Scopes.exit h.scopes, h.taken⟩)
    | error he h => exact .inStep (.error he ⟨congrArg Scopes.exit h.scopes, h.taken⟩)
  | cut out hlength hwritten hr =>
    cases hr with
    | ok h => exact .cut _ hlength hwritten (.ok h)
    | error h => exact .cut _ hlength hwritten (.error h)

theorem forEach {step step' : Value → Running Sink Unit} (values : List Value)
    (hstep : ∀ v m m', Machine.InStep w room m m' → CutAlike w room (step v m) (step' v m'))
    (hbeyond : ∀ v m w, Sink.Beyond w m.sink → SinkEnds (Sink.Beyond w) (step v m))
    (h : Machine.InStep w room m m') :
    CutAlike w room (Running.forEach step values m) (Running.forEach step' values m') := by
  induction values generalizing m m' with
  | nil => exact .inStep (.ok h)
  | cons v rest ih =>
    apply bind (hstep v m m' h)
    · intro _ u u' hu
      exact ih hu
    · intro _ u w hu
      exact Running.ends_forEach (fun v m => hbeyond v m w) rest hu

end CutAlike

mutual

/-- Two runs of a statement, with room for everything and with room for some bytes. -/
theorem Stmt.cutAlike_run : ∀ (stmt : Stmt) {m m' : Machine}, Machine.InStep w room m m' →
    CutAlike w room (stmt.run m) (stmt.run m')
  | .declare ident e, _, _, h => by
    apply CutAlike.bind (CutAlike.eval h e)
    · exact fun v _ _ h => CutAlike.declare h ident v
    · exact fun v _ _ h => Running.ends_declare h ident v
  | .assign ident e, _, _, h => by
    apply CutAlike.bind (CutAlike.eval h e)
    · exact fun v _ _ h => CutAlike.assign h ident v
    · exact fun v _ _ h => Running.ends_assign h ident v
  | .print e, _, _, h => by
    apply CutAlike.bind (CutAlike.eval h e)
    · exact fun _ _ _ h => CutAlike.output h (some _)
    · exact fun _ _ w h => Running.ends_output (Sink.stays_beyond w) h (some _)
  | .forEach ident e body, _, _, h => by
    have hround (v : Value) (m : Machine) (w : Array UInt8) (h : Sink.Beyond w m.sink) :
        SinkEnds (Sink.Beyond w) (Running.inScope ident.name v body.run m) :=
      Running.ends_inScope (fun _ => Block.ends_sink (Sink.stays_beyond w) body) h ident.name v
    apply CutAlike.bind (CutAlike.eval h e)
    · intro list _ _ h
      apply CutAlike.bind (CutAlike.ofExcept h _)
      · intro values _ _ h
        refine CutAlike.forEach values (fun v _ _ h => ?_) hround h
        exact CutAlike.inScope ident.name v
          (Block.cutAlike_run body ⟨congrArg (·.enterWith ident.name v) h.scopes, h.taken⟩)
      · intro values m w h
        exact Running.ends_forEach (fun v m => hround v m w) values h
    · intro list m w h
      apply Ends.bind (Running.ends_ofExcept h _)
      intro values m h
      exact Running.ends_forEach (fun v m => hround v m w) values h

/-- Two runs of a block, with room for everything and with room for some bytes. -/
theorem Block.cutAlike_run : ∀ (block : Block) {m m' : Machine}, Machine.InStep w room m m' →
    CutAlike w room (block.run m) (block.run m')
  | .one stmt, _, _, h => Stmt.cutAlike_run stmt h
  | .more stmt rest, _, _, h => by
    apply CutAlike.bind (Stmt.cutAlike_run stmt h)
    · exact fun _ _ _ h => Block.cutAlike_run rest h
    · exact fun _ _ w h => Block.ends_sink (Sink.stays_beyond w) rest h

end

/-- Two executions of a program, with room for everything and with room for some bytes. -/
theorem Block.cutAlike_execute (program : Block) {m m' : Machine} (h : Machine.InStep w room m m') :
    CutAlike w room (program.execute m) (program.execute m') := by
  apply CutAlike.bind (Block.cutAlike_run program h)
  · exact fun _ _ _ h => CutAlike.output h none
  · exact fun _ _ w h => Running.ends_output (Sink.stays_beyond w) h none

/-- Every scope that a program begins ends with it, also where the program fails. -/
theorem Block.depth_execute {σ : Type} [Writer σ] (program : Block) (m : Machine σ) :
    (stateAfter program.execute m).scopes.depth = m.scopes.depth := by
  have hkeeps : Keeps Set.univ Machine.scopes m (program.execute m) :=
    Block.keeps_execute fun _ _ => trivial
  exact (List.Forall₂.length_eq hkeeps.stateAfter).symm

/-- Where `out` is what a program prints if there is room for everything, a sink with room for some
bytes has taken the first of them. The run ends as before if there is room for all of `out`, and
else with the error of the sink and with as many scopes as it began with. -/
theorem full_sink_cuts_output (program : Block) (scopes : Scopes Value) (w : Array UInt8) (room : Nat) :
    let free : Machine := ⟨scopes, ⟨w, none, false⟩⟩
    let tight : Machine := ⟨scopes, ⟨w, some room, false⟩⟩
    ∃ out : List UInt8, (stateAfter program.execute free).sink.written = w ++ out ∧
      (stateAfter program.execute tight).sink.written = w ++ out.take room ∧
      (out.length ≤ room →
        answerOf program.execute tight = answerOf program.execute free ∧
        (stateAfter program.execute tight).scopes = (stateAfter program.execute free).scopes) ∧
      (room < out.length →
        answerOf program.execute tight = .error (.output Sink.full) ∧
        (stateAfter program.execute tight).scopes.depth = scopes.depth) := by
  intro free tight
  have hdepth : (stateAfter program.execute tight).scopes.depth = scopes.depth :=
    Block.depth_execute program tight
  have hstep : Machine.InStep w room free tight :=
    ⟨rfl, [], Nat.zero_le room, by simp [free], by simp [tight]⟩
  rcases (Block.cutAlike_execute program hstep).cases with halike | ⟨out, m', hr, hlength, hwritten, hfree⟩
  · obtain ⟨hscopes, out, hfit, hsink, hsink'⟩ := halike.stateAfter
    refine ⟨out, by rw [hsink], ?_, fun _ => ⟨halike.answerOf_eq.symm, hscopes⟩, fun hmore => ?_⟩
    · rw [hsink', List.take_of_length_le hfit]
    · omega
  · obtain ⟨more, hmore, hsink⟩ := hfree.stateAfter
    have hafter : stateAfter program.execute tight = m' := by rw [stateAfter, hr]
    refine ⟨out ++ more, ?_, ?_, fun hfit => ?_, fun _ => ⟨by rw [answerOf, hr], hdepth⟩⟩
    · rw [hsink, append_list_append]
    · rw [hafter, hwritten, ← hlength, List.take_left]
    · have hpos := List.length_pos_iff.mpr hmore
      rw [List.length_append] at hfit
      omega

/-- Prints two lists, both from inside a loop. -/
def Block.pairs : Block :=
  let n := Expr.var ⟨"n", 1, 26⟩
  .one (.forEach ⟨"n", 1, 5⟩ (.list (.more (.int 1) (.one (.int 2))))
    (.one (.print (.list (.more n (.one n))))))

/-- The second list is cut off after its first element. -/
theorem full_sink_cuts_output_pairs :
    let tight : Machine := ⟨Scopes.empty, ⟨#[], some 10, false⟩⟩
    (stateAfter Block.pairs.execute tight).sink.text = "[1, 1]\n[2," ∧
      answerOf Block.pairs.execute tight = .error (.output Sink.full) ∧
      (stateAfter Block.pairs.execute tight).scopes.depth = 1 := by
  intro tight
  obtain ⟨out, hfree, htight, -, hcut⟩ := full_sink_cuts_output Block.pairs Scopes.empty #[] 10
  have hout : out =
      (stateAfter Block.pairs.execute ⟨Scopes.empty, Sink.unlimited⟩).sink.written.toList := by
    rw [Sink.unlimited, hfree]
    simp
  have hlength : 10 < out.length := by
    rw [hout]
    decide +kernel
  refine ⟨?_, hcut hlength⟩
  rw [Sink.text, htight, hout]
  decide +kernel

end ListScript
