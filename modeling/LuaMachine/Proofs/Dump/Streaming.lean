import LuaMachine.Proofs.Dump.Function

/-!
# Readers that do not look ahead

A reader goes through its bytes from the front and does not look ahead. So either the bytes run out
somewhere, and then they run out for each of their prefixes as well (`Starves`), or there is a first
part of them that settles the outcome, whatever comes behind it, and that cannot be shortened
(`Settles`). `Streams` says that it is always one of these. It is kept by sequence (`Streams.bind`),
and so it holds of each piece of a dump.

The reader of a symbol needs care: how often it may call itself depends on how many bytes are left,
though more calls than are needed make no difference (`Read.run_symbol`).

Main statement: `streams_instruction`.
-/

namespace LuaMachine.Dump

/-- The end of a read, given how it ended and what is left. -/
def Read.leaving : Except DumpError α → Reader → EStateM.Result DumpError Reader α
  | .ok a, r => .ok a r
  | .error e, r => .error e r

/-- The bytes run out, and those of each prefix. -/
def Starves (read : Read α) (bytes : List UInt8) (strings : Array String) : Prop :=
  ∀ cut, cut <+: bytes → ∃ strings', read.run ⟨cut, strings⟩ = .error .unexpectedEof ⟨[], strings'⟩

/-- Just these bytes are taken, whatever comes behind them; of fewer the read does not get to its
end. -/
structure Settles (read : Read α) (taken : List UInt8) (strings : Array String)
    (outcome : Except DumpError α) (strings' : Array String) : Prop where
  run : ∀ rest, read.run ⟨taken ++ rest, strings⟩ = Read.leaving outcome ⟨rest, strings'⟩
  starves : ∀ cut, cut <+: taken → cut ≠ taken →
    ∃ strings', read.run ⟨cut, strings⟩ = .error .unexpectedEof ⟨[], strings'⟩

/-- On these bytes the read starves, or a part of them settles how it ends. -/
def StreamsAt (read : Read α) (bytes : List UInt8) (strings : Array String) : Prop :=
  Starves read bytes strings ∨ ∃ taken rest outcome strings', bytes = taken ++ rest ∧
    Settles read taken strings outcome strings'

/-- Nothing that a read has not taken makes a difference to it. -/
def Streams (read : Read α) : Prop := ∀ bytes strings, StreamsAt read bytes strings

section

variable {read : Read α} {next : α → Read β} {taken taken' : List UInt8}
variable {strings strings' strings'' : Array String}

theorem Read.run_bind_error {e : DumpError} {r r' : Reader} (f : α → Read β)
    (h : read.run r = .error e r') : (read >>= f).run r = .error e r' := by
  rw [EStateM.run_bind, h]

/-- A prefix of two parts ends in the first one, or takes all of it and ends in the second. -/
theorem prefix_append_cases {cut front back : List UInt8} (h : cut <+: front ++ back) :
    (cut <+: front ∧ cut ≠ front) ∨ ∃ more, more <+: back ∧ cut = front ++ more := by
  rcases List.prefix_or_prefix_of_prefix h (List.prefix_append front back) with hcut | ⟨more, rfl⟩
  · by_cases heq : cut = front
    · exact .inr ⟨[], List.nil_prefix, by rw [heq, List.append_nil]⟩
    · exact .inl ⟨hcut, heq⟩
  · exact .inr ⟨more, (List.prefix_append_right_inj front).1 h, rfl⟩

theorem Settles.of_run {outcome : Except DumpError α}
    (h : ∀ rest, read.run ⟨rest, strings⟩ = Read.leaving outcome ⟨rest, strings'⟩) :
    Settles read [] strings outcome strings' :=
  ⟨h, fun _ hcut hne => absurd (List.prefix_nil.1 hcut) hne⟩

/-- What takes nothing settles. -/
theorem StreamsAt.of_run (outcome : Except DumpError α)
    (h : ∀ rest, read.run ⟨rest, strings⟩ = Read.leaving outcome ⟨rest, strings'⟩)
    (bytes : List UInt8) : StreamsAt read bytes strings :=
  .inr ⟨[], bytes, outcome, strings', rfl, .of_run h⟩

/-- Only what a read makes of the bytes matters. -/
theorem StreamsAt.congr {read' : Read α} {bytes : List UInt8} (h : StreamsAt read bytes strings)
    (heq : ∀ cut, read'.run ⟨cut, strings⟩ = read.run ⟨cut, strings⟩) :
    StreamsAt read' bytes strings := by
  rcases h with hstarves | ⟨taken, rest, outcome, strings', rfl, hrun, hstarves⟩
  · refine .inl fun cut hcut => ?_
    rw [heq]
    exact hstarves cut hcut
  · refine .inr ⟨taken, rest, outcome, strings', rfl, fun rest => ?_, fun cut hcut hne => ?_⟩
    · rw [heq, hrun]
    · rw [heq]
      exact hstarves cut hcut hne

theorem streams_pure (a : α) : Streams (pure a : Read α) :=
  fun bytes _ => .of_run (.ok a) (fun _ => rfl) bytes

theorem streams_throw (e : DumpError) : Streams (throw e : Read α) :=
  fun bytes _ => .of_run (.error e) (fun _ => rfl) bytes

theorem Starves.bind {bytes : List UInt8} (h : Starves read bytes strings) (next : α → Read β) :
    Starves (read >>= next) bytes strings := by
  intro cut hcut
  obtain ⟨strings', hrun⟩ := h cut hcut
  exact ⟨strings', Read.run_bind_error next hrun⟩

/-- A read that fails is not continued. -/
theorem Settles.bind_error {e : DumpError} (h : Settles read taken strings (.error e) strings')
    (next : α → Read β) : Settles (read >>= next) taken strings (.error e) strings' where
  run rest := Read.run_bind_error next (h.run rest)
  starves cut hcut hne := by
    obtain ⟨strings', hrun⟩ := h.starves cut hcut hne
    exact ⟨strings', Read.run_bind_error next hrun⟩

/-- A cut in the second of two reads, or in the first. -/
theorem Settles.cut {a : α} (h : Settles read taken strings (.ok a) strings') {bytes cut : List UInt8}
    (hcut : cut <+: taken ++ bytes)
    (hnext : ∀ more, more <+: bytes → cut = taken ++ more →
      ∃ strings'', (next a).run ⟨more, strings'⟩ = .error .unexpectedEof ⟨[], strings''⟩) :
    ∃ strings'', (read >>= next).run ⟨cut, strings⟩ = .error .unexpectedEof ⟨[], strings''⟩ := by
  rcases prefix_append_cases hcut with ⟨hfirst, hne⟩ | ⟨more, hmore, rfl⟩
  · obtain ⟨strings'', hrun⟩ := h.starves cut hfirst hne
    exact ⟨strings'', Read.run_bind_error next hrun⟩
  · obtain ⟨strings'', hrun⟩ := hnext more hmore rfl
    exact ⟨strings'', (Read.run_bind_ok next (h.run more)).trans hrun⟩

theorem Settles.bind_starves {a : α} (h : Settles read taken strings (.ok a) strings')
    {rest : List UInt8} (hnext : Starves (next a) rest strings') :
    Starves (read >>= next) (taken ++ rest) strings :=
  fun _ hcut => h.cut hcut fun more hmore _ => hnext more hmore

theorem Settles.bind {a : α} {outcome : Except DumpError β}
    (h : Settles read taken strings (.ok a) strings')
    (hnext : Settles (next a) taken' strings' outcome strings'') :
    Settles (read >>= next) (taken ++ taken') strings outcome strings'' where
  run rest := by
    rw [List.append_assoc, Read.run_bind_ok next (h.run _), hnext.run]
  starves cut hcut hne := h.cut hcut fun more hmore heq =>
    hnext.starves more hmore fun hall => hne (by rw [heq, hall])

/-- One read after another, on given bytes. The second starts with what the first has left. -/
theorem StreamsAt.bind {bytes : List UInt8} (h : StreamsAt read bytes strings)
    (hnext : ∀ a taken rest strings', bytes = taken ++ rest →
      Settles read taken strings (.ok a) strings' → StreamsAt (next a) rest strings') :
    StreamsAt (read >>= next) bytes strings := by
  rcases h with hstarves | ⟨taken, rest, outcome, strings', rfl, hsettles⟩
  · exact .inl (hstarves.bind next)
  · cases outcome with
    | error e => exact .inr ⟨taken, rest, .error e, strings', rfl, hsettles.bind_error next⟩
    | ok a =>
      rcases hnext a taken rest strings' rfl hsettles with
        hstarves | ⟨taken', rest', outcome, strings'', rfl, hsettles'⟩
      · exact .inl (hsettles.bind_starves hstarves)
      · refine .inr ⟨taken ++ taken', rest', outcome, strings'', ?_, hsettles.bind hsettles'⟩
        rw [List.append_assoc]

theorem Streams.bind (h : Streams read) (hnext : ∀ a, Streams (next a)) :
    Streams (read >>= next) :=
  fun bytes strings => (h bytes strings).bind fun a _ rest strings' _ _ => hnext a rest strings'

theorem Streams.map (h : Streams read) (f : α → β) : Streams (read >>= fun a => pure (f a)) :=
  h.bind fun _ => streams_pure _

theorem Streams.ite {c : Prop} [Decidable c] {read read' : Read α} (h : Streams read)
    (h' : Streams read') : Streams (if c then read else read') := by
  split
  · exact h
  · exact h'

end

/-! ## Bytes, integers and numbers -/

theorem Read.run_bytes_short {n : Nat} {bytes : List UInt8} (h : bytes.length < n)
    (strings : Array String) :
    (Read.bytes n).run ⟨bytes, strings⟩ = .error .unexpectedEof ⟨[], strings⟩ := by
  have htake : bytes.take n = bytes := List.take_of_length_le (by omega)
  have hdrop : bytes.drop n = [] := List.drop_of_length_le (by omega)
  have hget : (get : Read Reader).run ⟨bytes, strings⟩ = .ok ⟨bytes, strings⟩ ⟨bytes, strings⟩ := rfl
  unfold Read.bytes
  rw [Read.run_bind_ok _ hget]
  simp only [htake, hdrop, h, if_true]
  rfl

theorem streams_bytes (n : Nat) : Streams (Read.bytes n) := by
  intro bytes strings
  by_cases h : bytes.length < n
  · refine .inl fun cut hcut => ⟨strings, Read.run_bytes_short ?_ strings⟩
    exact Nat.lt_of_le_of_lt hcut.length_le h
  · have htaken : (bytes.take n).length = n := List.length_take_of_le (by omega)
    refine .inr ⟨bytes.take n, bytes.drop n, .ok (bytes.take n), strings,
      (List.take_append_drop n bytes).symm, fun rest => Read.run_bytes _ rest strings htaken, ?_⟩
    intro cut hcut hne
    refine ⟨strings, Read.run_bytes_short ?_ strings⟩
    rw [← htaken]
    exact Nat.lt_of_le_of_ne hcut.length_le fun heq => hne (hcut.eq_of_length heq)

theorem streams_u8 : Streams Read.u8 := by
  refine (streams_bytes 1).bind fun bs => ?_
  split
  · exact streams_pure _
  · exact streams_throw _

theorem streams_int : Streams Read.int := by
  refine streams_u8.bind fun first => ?_
  refine .ite ((streams_bytes 2).map _) ?_
  exact .ite ((streams_bytes 4).map _) (streams_pure _)

theorem streams_nat : Streams Read.nat := by
  refine streams_int.bind fun v => ?_
  exact .ite ((streams_throw _).bind fun _ => streams_pure _) (streams_pure _)

theorem streams_bool : Streams Read.bool := streams_u8.map _

theorem streams_number : Streams Read.number := (streams_bytes 8).map _

/-- What depends on the strings met so far only. -/
theorem streams_known {f : Reader → Read α} (h : ∀ r, Streams (f r))
    (hf : ∀ r r' : Reader, r.strings = r'.strings → f r = f r') : Streams (get >>= f) := by
  intro bytes strings
  refine (h ⟨bytes, strings⟩ bytes strings).congr fun cut => ?_
  rw [← hf ⟨cut, strings⟩ ⟨bytes, strings⟩ rfl]
  rfl

theorem streams_meet (s : String) :
    Streams (modify fun r => { r with strings := r.strings.push s } : Read Unit) := by
  intro bytes strings
  have hrun : ∀ rest, (modify fun r => { r with strings := r.strings.push s } : Read Unit).run
      ⟨rest, strings⟩ = Read.leaving (.ok ()) ⟨rest, strings.push s⟩ := fun _ => rfl
  exact .of_run (.ok ()) hrun bytes

theorem streams_string : Streams Read.string := by
  refine streams_nat.bind fun i => ?_
  refine streams_known (fun r => ?_) fun r r' h => by rw [h]
  dsimp only
  split
  · exact streams_pure _
  · -- what comes behind the check is the same on both ways
    refine .ite ((streams_throw _).bind fun _ => ?_) ?_
    all_goals
      refine streams_nat.bind fun n => (streams_bytes n).bind fun bs => ?_
      split
      · exact (streams_meet _).bind fun _ => streams_pure _
      · exact streams_throw _

theorem streams_each {read : Read α} (h : Streams read) : ∀ n, Streams (Read.each read n)
  | 0 => streams_pure _
  | n + 1 => h.bind fun _ => (streams_each h n).map _

/-! ## The pieces of a dump -/

theorem streams_literal : Streams readLiteral := by
  refine streams_u8.bind fun tag => ?_
  split
  · exact streams_pure _
  · exact streams_pure _
  · exact streams_pure _
  · exact streams_number.map _
  · exact streams_string.map _
  · exact streams_throw _

/-- A symbol, given how the environment around a name is read. -/
def readSymbolBy (inner : Read Symbol) : Read Symbol := do
  match ← .u8 with
  | 0 => return .local (← .string) (← .nat)
  | 1 => return .upvalue (← .string) (← .nat)
  | 2 =>
    let name ← .string
    return .global name (← inner)
  | 3 => return .defaultEnv
  | tag => throw (.invalidTag tag)

theorem Read.run_bind_congr {read : Read α} {next next' : α → Read β} {r : Reader}
    (h : ∀ a r', read.run r = .ok a r' → (next a).run r' = (next' a).run r') :
    (read >>= next).run r = (read >>= next').run r := by
  rw [EStateM.run_bind, EStateM.run_bind]
  cases hread : read.run r with
  | ok a r' => exact h a r' hread
  | error e r' => rfl

/-- A read leaves what it does not take. -/
theorem Streams.length_le {read : Read α} (h : Streams read) {r r' : Reader} {a : α}
    (hrun : read.run r = .ok a r') : r'.bytes.length ≤ r.bytes.length := by
  rcases h r.bytes r.strings with hstarves | ⟨taken, rest, outcome, strings', hbytes, hsettles⟩
  · obtain ⟨strings', herror⟩ := hstarves r.bytes (List.prefix_refl _)
    cases hrun.symm.trans herror
  · have hleaving := hsettles.run rest
    rw [← hbytes] at hleaving
    have heq := hrun.symm.trans hleaving
    cases outcome with
    | error e => cases heq
    | ok b =>
      cases heq
      rw [hbytes, List.length_append]
      exact Nat.le_add_left _ _

theorem Read.length_of_u8 {r r' : Reader} {b : UInt8} (h : Read.u8.run r = .ok b r') :
    r'.bytes.length < r.bytes.length := by
  obtain ⟨bytes, strings⟩ := r
  cases bytes with
  | nil => cases h
  | cons c rest =>
    rw [Read.run_u8] at h
    cases h
    exact Nat.lt_succ_self _

/-- The environment around a name is read from fewer bytes than the symbol. -/
theorem Read.run_symbolBy_congr {inner inner' : Read Symbol} {r : Reader}
    (h : ∀ r' : Reader, r'.bytes.length < r.bytes.length → inner.run r' = inner'.run r') :
    (readSymbolBy inner).run r = (readSymbolBy inner').run r := by
  refine Read.run_bind_congr fun tag r₁ htag => ?_
  have hlt := Read.length_of_u8 htag
  split
  · rfl
  · rfl
  · refine Read.run_bind_congr fun name r₂ hname => ?_
    have hle := streams_string.length_le hname
    rw [EStateM.run_bind, EStateM.run_bind, h r₂ (by omega)]
  · rfl
  · rfl

/-- More calls than there are bytes are not needed. -/
theorem Read.run_symbolWithin : ∀ {fuel : Nat} {r : Reader}, r.bytes.length < fuel →
    (readSymbolWithin fuel).run r = readSymbol.run r := by
  have hall : ∀ (n fuel fuel' : Nat) (r : Reader), r.bytes.length < n → r.bytes.length < fuel →
      r.bytes.length < fuel' → (readSymbolWithin fuel).run r = (readSymbolWithin fuel').run r := by
    intro n
    induction n with
    | zero => omega
    | succ n ih =>
      rintro (_ | fuel) (_ | fuel') r hn h h'
      · omega
      · omega
      · omega
      · exact Read.run_symbolBy_congr fun r' hr' => ih fuel fuel' r' (by omega) (by omega) (by omega)
  intro fuel r h
  exact hall _ _ _ _ (Nat.lt_succ_self _) h (Nat.lt_succ_self _)

/-- The reader of a symbol reads the environment around a name in the same way. -/
theorem Read.run_symbol (r : Reader) : readSymbol.run r = (readSymbolBy readSymbol).run r := by
  have h : (readSymbolWithin (r.bytes.length + 1)).run r = readSymbol.run r :=
    Read.run_symbolWithin (Nat.lt_succ_self _)
  rw [← h]
  exact Read.run_symbolBy_congr fun r' hr' => Read.run_symbolWithin hr'

/-- By induction on the bytes: after the tag there are fewer. -/
theorem streams_symbol : Streams readSymbol := by
  intro bytes
  induction hn : bytes.length using Nat.strongRecOn generalizing bytes with
  | ind n ih =>
    intro strings
    refine StreamsAt.congr ?_ fun cut => Read.run_symbol ⟨cut, strings⟩
    refine (streams_u8 bytes strings).bind fun tag taken rest strings₁ hbytes htag => ?_
    have htaken := Read.length_of_u8 (htag.run rest)
    rw [← hbytes] at htaken
    split
    · exact streams_string.bind (fun name => streams_nat.map (Symbol.local name)) rest strings₁
    · exact streams_string.bind (fun name => streams_nat.map (Symbol.upvalue name)) rest strings₁
    · refine (streams_string rest strings₁).bind fun name taken' rest' strings₂ hrest _ => ?_
      have hinner : StreamsAt readSymbol rest' strings₂ := by
        refine ih rest'.length ?_ rest' rfl strings₂
        have := congrArg List.length hrest
        rw [List.length_append] at this
        simp only at htaken
        omega
      exact hinner.bind fun env _ rest strings _ _ => streams_pure _ rest strings
    · exact streams_pure _ rest strings₁
    · exact streams_throw _ rest strings₁

theorem streams_span (source : Nat) : Streams (readSpan source) := by
  have hspan : Streams (do
      let fromLine ← Read.nat
      let fromColumn ← Read.nat
      let toLine ← Read.nat
      let toColumn ← Read.nat
      let flags ← Read.u8
      return some
        { Span.ofSource source fromLine fromColumn toLine toColumn with
          isStepStop := flags &&& 1 != 0, noBreakpoint := flags &&& 2 != 0 }) := by
    refine streams_nat.bind fun _ => streams_nat.bind fun _ => streams_nat.bind fun _ => ?_
    exact streams_nat.bind fun _ => streams_u8.map _
  refine streams_bool.bind fun present => ?_
  exact .ite (streams_pure _) hspan

theorem streams_address (length : Nat) : Streams (readAddress length) :=
  streams_nat.bind fun _ => .ite (streams_pure _) (streams_throw _)

theorem streams_op (length : Nat) : Streams (readOp length) := by
  have haddress : ∀ f : Nat → OpCode, Streams (do return f (← readAddress length)) :=
    fun f => (streams_address length).map f
  have hnat : ∀ f : Nat → OpCode, Streams (do return f (← Read.nat)) := fun f => streams_nat.map f
  refine streams_u8.bind fun tag => ?_
  split
  case h_2 =>
    refine streams_string.bind fun name => streams_u8.bind fun kind => ?_
    split
    · exact (streams_pure _).bind fun _ => hnat _
    · exact (streams_pure _).bind fun _ => hnat _
    · exact (streams_throw _).bind fun _ => hnat _
  case h_3 => exact streams_nat.bind fun n => (streams_each streams_string n).map _
  case h_4 => exact streams_nat.bind fun n => streams_bool.map _
  case h_5 => exact streams_literal.map _
  case h_8 => exact streams_symbol.map _
  case h_9 => exact streams_symbol.bind fun s => hnat _
  case h_10 => exact streams_nat.bind fun slot => hnat _
  case h_11 =>
    exact (streams_address length).bind fun entry => streams_nat.bind fun n =>
      (streams_each streams_symbol n).map _
  case h_14 => exact streams_string.map _
  case h_20 =>
    refine streams_nat.bind fun i => ?_
    split
    · exact streams_pure _
    · exact streams_throw _
  case h_26 => exact streams_nat.bind fun i => streams_bool.map _
  case h_37 => exact streams_throw _
  -- the operations with no operand, with a number or with an address
  all_goals first | exact streams_pure _ | exact hnat _ | exact haddress _

theorem streams_instruction (source length : Nat) : Streams (readInstruction source length) :=
  (streams_op length).bind fun op => (streams_span source).map (Instruction.mk op)

end LuaMachine.Dump
