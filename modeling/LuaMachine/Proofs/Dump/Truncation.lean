import LuaMachine.Proofs.Dump.Roundtrip
import LuaMachine.Proofs.Dump.Streaming
import LuaMachine.Proofs.Machine.Aside

/-!
# Dumps that end too early, and bytes behind a dump

The reader of a dump does not look ahead (`Streams`), except that its first bytes are read at once:
where these are cut, the fault is not that bytes are missing (`shortage`). So what a dump is cut off
before is missed, and what follows it is not seen.

Main statement: `truncated_and_trailing`.
-/

namespace LuaMachine.Dump

/-! ## The reader of a dump -/

/-- The version behind the first bytes. -/
def readVersion : Read Unit := do
  let found ← Read.u8
  if found != version then throw (.versionMismatch found version)

/-- The function behind the version. -/
def readFields (source : Nat) : Read (Bool × List Instruction) := do
  let hasEnv ← Read.bool
  let length ← Read.nat
  return (hasEnv, ← Read.each (readInstruction source length) length)

theorem streams_version : Streams readVersion :=
  streams_u8.bind fun _ => .ite (streams_throw _) (streams_pure _)

theorem streams_fields (source : Nat) : Streams (readFields source) :=
  streams_bool.bind fun hasEnv => streams_nat.bind fun length =>
    (streams_each (streams_instruction source length) length).map (Prod.mk hasEnv)

/-- The first bytes, or that there are too few of them. -/
theorem Read.run_first (bytes : List UInt8) :
    (tryCatch (some <$> Read.bytes 4) fun _ => pure none : Read _).run { bytes } =
      if bytes.length < magic.length then .ok none { bytes := [] }
      else .ok (some (bytes.take 4)) { bytes := bytes.drop 4 } := by
  show EStateM.tryCatch (EStateM.map some (Read.bytes 4)) _ _ = _
  unfold EStateM.tryCatch EStateM.map
  by_cases h : bytes.length < magic.length
  · have hrun : Read.bytes 4 { bytes } = .error .unexpectedEof { bytes := [] } :=
      Read.run_bytes_short h #[]
    rw [if_pos h]
    simp only [hrun]
    rfl
  · have hlength : 4 ≤ bytes.length := Nat.le_of_not_lt h
    have hrun : Read.bytes 4 { bytes := bytes.take 4 ++ bytes.drop 4 } =
        .ok (bytes.take 4) { bytes := bytes.drop 4 } :=
      Read.run_bytes _ _ #[] (List.length_take_of_le hlength)
    rw [List.take_append_drop] at hrun
    rw [if_neg h]
    simp only [hrun]

theorem run_magic_short {bytes : List UInt8} (h : bytes.length < magic.length) :
    readMagic.run { bytes } = .error .badHeader { bytes := [] } := by
  have hfirst := Read.run_first bytes
  rw [if_pos h] at hfirst
  unfold readMagic
  rw [Read.run_bind_ok _ hfirst]
  rfl

/-- Where the first bytes are there, what follows is read if they are the right ones. -/
theorem run_magic {front : List UInt8} (h : front.length = 4) (rest : List UInt8) :
    readMagic.run { bytes := front ++ rest } =
      if front = magic then readVersion.run { bytes := rest }
      else .error .badHeader { bytes := rest } := by
  have hfirst := Read.run_first (front ++ rest)
  have hlong : ¬ (front ++ rest).length < magic.length := by
    have hmagic : magic.length = 4 := rfl
    rw [List.length_append]
    omega
  rw [if_neg hlong, List.take_left' h, List.drop_left' h] at hfirst
  unfold readMagic
  rw [Read.run_bind_ok _ hfirst]
  by_cases hmagic : front = magic
  · subst hmagic
    rfl
  · have hne : (front != magic) = true := bne_iff_ne.2 hmagic
    rw [if_neg hmagic]
    simp only [hne, if_true]
    rfl

/-- The fault of a dump of which only that many bytes are there. -/
def shortage (n : Nat) : DumpError := if n < magic.length then .badHeader else .unexpectedEof

/-- All bytes are read, and the fault is that there are no more. -/
def Short (source : Nat) (bytes : List UInt8) : Prop :=
  ∃ strings, (readFunction source).run { bytes } =
    .error (shortage bytes.length) { bytes := [], strings }

theorem short_of_length_lt {bytes : List UInt8} (h : bytes.length < magic.length) (source : Nat) :
    Short source bytes := by
  refine ⟨#[], ?_⟩
  rw [shortage, if_pos h]
  exact Read.run_bind_error _ (run_magic_short h)

/-- What the reader of a dump takes from the front. -/
def front (source : Nat) (bytes : List UInt8) : List UInt8 :=
  let left := match (readFunction source).run { bytes } with
    | .ok _ r | .error _ r => r.bytes
  bytes.take (bytes.length - left.length)

/-- A dump is cut off somewhere, and so is each prefix of it; or a part of it settles the outcome,
whatever comes behind, and each proper prefix of that is cut off. -/
theorem function_streams (source : Nat) (bytes : List UInt8) :
    (∀ cut, cut <+: bytes → Short source cut) ∨
      ∃ taken rest outcome strings, bytes = taken ++ rest ∧
        (∀ behind, (readFunction source).run { bytes := taken ++ behind } =
          Read.leaving outcome { bytes := behind, strings }) ∧
        ∀ cut, cut <+: taken → cut ≠ taken → Short source cut := by
  by_cases hlength : bytes.length < magic.length
  · exact .inl fun cut hcut => short_of_length_lt (Nat.lt_of_le_of_lt hcut.length_le hlength) source
  have hfour : (bytes.take 4).length = 4 := List.length_take_of_le (Nat.le_of_not_lt hlength)
  have hbytes := List.take_append_drop 4 bytes
  generalize bytes.take 4 = first, bytes.drop 4 = rest at hfour hbytes
  subst hbytes
  -- a cut in the first bytes
  have hfirst : ∀ cut, cut <+: first → cut ≠ first → Short source cut := by
    intro cut hcut hne
    refine short_of_length_lt ?_ source
    have hlt : cut.length < first.length :=
      Nat.lt_of_le_of_ne hcut.length_le fun heq => hne (hcut.eq_of_length heq)
    rw [hfour] at hlt
    exact hlt
  by_cases hmagic : first = magic
  · have hbody : ∀ behind, (readFunction source).run { bytes := first ++ behind } =
        (readVersion >>= fun _ => readFields source).run { bytes := behind } := by
      intro behind
      have hrun := run_magic hfour behind
      rw [if_pos hmagic] at hrun
      show (readMagic >>= fun _ => readFields source).run _ = _
      rw [EStateM.run_bind, EStateM.run_bind, hrun]
    -- a cut behind the first bytes
    have hshort : ∀ more, (∃ strings, (readVersion >>= fun _ => readFields source).run
        { bytes := more } = .error .unexpectedEof { bytes := [], strings }) →
          Short source (first ++ more) := by
      rintro more ⟨strings, hrun⟩
      have hlong : ¬ (first ++ more).length < magic.length := by
        rw [List.length_append, hfour]
        exact Nat.not_lt.2 (Nat.le_add_right 4 _)
      refine ⟨strings, ?_⟩
      rw [shortage, if_neg hlong, hbody, hrun]
    rcases streams_version.bind (fun _ => streams_fields source) rest #[] with
      hstarves | ⟨taken, rest, outcome, strings, rfl, hrun, hstarves⟩
    · refine .inl fun cut hcut => ?_
      rcases prefix_append_cases hcut with ⟨hcut, hne⟩ | ⟨more, hmore, rfl⟩
      · exact hfirst cut hcut hne
      · exact hshort more (hstarves more hmore)
    · refine .inr ⟨first ++ taken, rest, outcome, strings, (List.append_assoc ..).symm, ?_, ?_⟩
      · intro behind
        rw [List.append_assoc, hbody, hrun]
      · intro cut hcut hne
        rcases prefix_append_cases hcut with ⟨hcut, hne⟩ | ⟨more, hmore, rfl⟩
        · exact hfirst cut hcut hne
        · exact hshort more (hstarves more hmore fun heq => hne (by rw [heq]))
  · refine .inr ⟨first, rest, .error .badHeader, #[], rfl, fun behind => ?_, hfirst⟩
    have hrun := run_magic hfour behind
    rw [if_neg hmagic] at hrun
    exact Read.run_bind_error _ hrun

/-! ## Undumping -/

theorem undump_of_short {source : Nat} {bytes : List UInt8} (h : Short source bytes) (t : Segment) :
    t.undump bytes source = .error (shortage bytes.length) := by
  obtain ⟨strings, hrun⟩ := h
  unfold Segment.undump
  rw [hrun]

/-- What is undumped does not depend on what is left. -/
theorem undump_congr {source : Nat} {bytes bytes' : List UInt8}
    {outcome : Except DumpError (Bool × List Instruction)} {r r' : Reader}
    (h : (readFunction source).run { bytes } = Read.leaving outcome r)
    (h' : (readFunction source).run { bytes := bytes' } = Read.leaving outcome r') (t : Segment) :
    t.undump bytes source = t.undump bytes' source := by
  unfold Segment.undump
  rw [h, h']
  cases outcome with
  | error e => rfl
  | ok p => rfl

/-- The same bytes in front are read, and what is behind them makes no difference. -/
theorem front_eq {source : Nat} {taken rest : List UInt8}
    {outcome : Except DumpError (Bool × List Instruction)} {strings : Array String}
    (h : (readFunction source).run { bytes := taken ++ rest } =
      Read.leaving outcome { bytes := rest, strings }) : front source (taken ++ rest) = taken := by
  have htake : (taken ++ rest).take ((taken ++ rest).length - rest.length) = taken := by
    rw [List.length_append, Nat.add_sub_cancel, List.take_left]
  unfold front
  rw [h]
  cases outcome with
  | error e => exact htake
  | ok p => exact htake

/-- What comes of undumping depends only on what is read. A dump that is cut off is read to its end;
else what is read settles it, whatever comes behind, and cannot be shortened. -/
theorem undump_front (t : Segment) (source : Nat) (bytes : List UInt8) :
    (front source bytes = bytes ∧
        ∀ cut, cut <+: bytes → t.undump cut source = .error (shortage cut.length)) ∨
      (∀ bytes', front source bytes <+: bytes' → t.undump bytes' source = t.undump bytes source) ∧
        ∀ cut, cut <+: front source bytes → cut ≠ front source bytes →
          t.undump cut source = .error (shortage cut.length) := by
  rcases function_streams source bytes with hshort | ⟨taken, rest, outcome, strings, rfl, hrun, hcut⟩
  · refine .inl ⟨?_, fun cut hcut => undump_of_short (hshort cut hcut) t⟩
    obtain ⟨strings, hrun⟩ := hshort bytes (List.prefix_refl _)
    unfold front
    rw [hrun]
    exact List.take_length
  · rw [front_eq (hrun rest)]
    refine .inr ⟨?_, fun cut hprefix hne => undump_of_short (hcut cut hprefix hne) t⟩
    rintro _ ⟨behind, rfl⟩
    exact undump_congr (hrun behind) (hrun rest) t

/-- A dump is read to its end, and no further. -/
theorem ofFunction_streams {s : Segment} {entry : Nat} {hasEnv : Bool} {d : List UInt8}
    (h : ofFunction s entry hasEnv = .ok d) (source : Nat) :
    ∃ p strings, (∀ behind, (readFunction source).run { bytes := d ++ behind } =
        Read.leaving (.ok p) { bytes := behind, strings }) ∧
      ∀ cut, cut <+: d → cut ≠ d → Short source cut := by
  obtain ⟨block, name, kind, n, span, body, w, -, -, -, hrun, rfl⟩ := ofFunction_eq_ok.1 h
  obtain ⟨out, hout, hread⟩ := codes_function entry source hasEnv body _ _ hrun
  have hbytes : w.bytes.toList = out := by simpa using hout
  rw [hbytes]
  refine ⟨_, w.strings.toArray, hread, ?_⟩
  have hall := hread []
  rw [List.append_nil] at hall
  rcases function_streams source out with hshort | ⟨taken, rest, outcome, strings, rfl, hrest, hcut⟩
  · obtain ⟨strings, herror⟩ := hshort out (List.prefix_refl _)
    cases hall.symm.trans herror
  · -- nothing is left of the dump
    have hleft := hall.symm.trans (hrest rest)
    cases outcome with
    | error e => cases hleft
    | ok p =>
      cases hleft
      rw [List.append_nil]
      exact hcut

/-- A dump that is refused adds nothing, and nothing else changes. -/
theorem loadDump_of_short {bytes : List UInt8} (h : ∀ source, Short source bytes)
    (env : Option TableId) (name : Option String) (w : World) :
    Exec.loadDump bytes env name w = .error (.error (.dump (shortage bytes.length))) w := by
  unfold Exec.loadDump
  rw [Exec.bind_ok (Exec.script_getD _), Exec.bind_ok (Exec.get_eq _)]
  dsimp only
  rw [undump_of_short (h _)]
  rfl

/-- A truncated dump is always rejected, and bytes behind a dump never matter. Whatever function was
dumped: each proper prefix of its dump is refused, for its header within the first four bytes and for
the end of the input behind them, and loading it changes nothing; more bytes behind the dump make no
difference. Any other bytes are either read to their end and refused for that, as are their prefixes;
or what comes of them depends only on the part that is read, which cannot be shortened. -/
theorem truncated_and_trailing (t : Segment) (source : Nat) :
    (∀ {s : Segment} {entry : Nat} {hasEnv : Bool} {d : List UInt8},
      ofFunction s entry hasEnv = .ok d →
        (∀ cut, cut <+: d → cut ≠ d →
          t.undump cut source = .error (shortage cut.length) ∧ ∀ env name w,
            Exec.loadDump cut env name w = .error (.error (.dump (shortage cut.length))) w) ∧
        ∀ behind, t.undump (d ++ behind) source = t.undump d source) ∧
    ∀ bytes, (front source bytes = bytes ∧
        ∀ cut, cut <+: bytes → t.undump cut source = .error (shortage cut.length)) ∨
      (∀ bytes', front source bytes <+: bytes' → t.undump bytes' source = t.undump bytes source) ∧
        ∀ cut, cut <+: front source bytes → cut ≠ front source bytes →
          t.undump cut source = .error (shortage cut.length) := by
  refine ⟨fun {s entry hasEnv d} h => ?_, undump_front t source⟩
  constructor
  · intro cut hcut hne
    have hshort : ∀ source, Short source cut := by
      intro source
      obtain ⟨p, strings, -, hcuts⟩ := ofFunction_streams h source
      exact hcuts cut hcut hne
    exact ⟨undump_of_short (hshort source) t, loadDump_of_short hshort⟩
  · intro behind
    obtain ⟨p, strings, hrun, -⟩ := ofFunction_streams h source
    have hall := hrun []
    rw [List.append_nil] at hall
    exact undump_congr (hrun behind) hall t

/-- A function of two instructions: cut in the first bytes, cut in its name, and with more behind. -/
theorem truncated_and_trailing_small : ∃ d,
    ofFunction (Segment.empty.append [⟨.header "f" .function 2, none⟩, ⟨.ret 0, none⟩]) 0 false =
        .ok d ∧
      Segment.empty.undump (d.take 3) 0 = .error .badHeader ∧
      Segment.empty.undump (d.take 10) 0 = .error .unexpectedEof ∧
      Segment.empty.undump (d ++ [7]) 0 = Segment.empty.undump d 0 := by
  let d : List UInt8 := [0x1b, 0x4c, 0x4e, 0x54, 1, 0, 2, 1, 0, 1, 0x66, 1, 2, 0, 14, 0, 0]
  have hdump : ofFunction
      (Segment.empty.append [⟨.header "f" .function 2, none⟩, ⟨.ret 0, none⟩]) 0 false = .ok d := by
    decide +kernel
  obtain ⟨hcut, hbehind⟩ := (truncated_and_trailing Segment.empty 0).1 hdump
  have hmagic := hcut (d.take 3) (List.take_prefix _ _) (by decide)
  have hname := hcut (d.take 10) (List.take_prefix _ _) (by decide)
  exact ⟨d, hdump, hmagic.1, hname.1, hbehind [7]⟩

end LuaMachine.Dump
