import LuaMachine.Proofs.Code.Layout
import LuaMachine.Proofs.Dump.Function
import Mathlib.Data.List.Dedup
import Mathlib.Data.List.Perm.Subperm

/-!
# What is written

A write fails for three reasons only: a number is too large, a literal is no plain value, or an
address lies outside the function. `Succeeds texts write` says that `write` succeeds as long as all
strings that were written so far are among `texts`; there are too few of these for their numbers to
become too large. So a function is written without fail (`succeeds_function`).

A dump is made of bytes, integers, sizes, truth values, numbers and strings, in any order. A writer
puts them one after the other and refuses the sizes that are too large; a reader that is told the
kinds of the others takes them off again. Both keep a table of the strings met so far, so what an
item looks like depends on all that came before it: the invariant is that the reader's table behind
an item is the writer's. What is written is read back (`items_read_back`).
-/

namespace LuaMachine

/-! ## The numbers and texts of an instruction -/

namespace Symbol

/-- The numbers that a symbol holds. -/
def sizes : Symbol → List Nat
  | .local _ n | .upvalue _ n => [n]
  | .global _ env => env.sizes
  | .defaultEnv => []

/-- The names that a symbol holds. -/
def texts : Symbol → List String
  | .local name _ | .upvalue name _ => [name]
  | .global name env => name :: env.texts
  | .defaultEnv => []

end Symbol

namespace OpCode

/-- The numbers that an operation holds, addresses apart. -/
def sizes : OpCode → List Nat
  | header _ _ n | pop n | copy n | call n | ret n | makeTuple n | indexSet n | forVar n
  | args n _ | tableAppend n _ => [n]
  | beginFn locals => [locals.length]
  | load s => s.sizes
  | store s i => i :: s.sizes
  | .local slot i => [slot, i]
  | closure _ captures => captures.length :: captures.flatMap Symbol.sizes
  | _ => []

/-- The texts that an operation holds. -/
def texts : OpCode → List String
  | header name _ _ | method name | literal (.string name) => [name]
  | beginFn locals => locals
  | load s | store s _ => s.texts
  | closure _ captures => captures.flatMap Symbol.texts
  | _ => []

end OpCode

/-- The numbers of a place in a source. -/
def Span.sizes (s : Span) : List Nat := [s.fromLine, s.fromColumn, s.toLine, s.toColumn]

/-- The numbers that an instruction holds, addresses apart. -/
def Instruction.sizes (i : Instruction) : List Nat :=
  i.op.sizes ++ i.span.toList.flatMap Span.sizes

namespace Dump

/-- The largest number in a dump is below this one. -/
def sizeLimit : Nat := 2147483648

/-- All sizes in the code of a function are below the limit: its length, the numbers in its
instructions, the lengths of its texts in bytes and the number of different texts. -/
structure SizesBounded (body : List Instruction) : Prop where
  length : body.length < sizeLimit
  sizes : ∀ i ∈ body, ∀ n ∈ i.sizes, n < sizeLimit
  texts : ∀ i ∈ body, ∀ s ∈ i.op.texts, s.utf8ByteSize < sizeLimit
  distinct : (body.flatMap (·.op.texts)).dedup.length < sizeLimit

/-! ## Writes that succeed -/

/-- The strings written so far, each of them once, are among the given ones. -/
def Writer.Among (texts : List String) (w : Writer) : Prop :=
  w.strings.Nodup ∧ ∀ s ∈ w.strings, s ∈ texts

/-- A write that succeeds when all strings so far are among the given ones, and adds none but
them. -/
def Succeeds (texts : List String) (write : Write Unit) : Prop :=
  ∀ w : Writer, w.Among texts → ∃ w', write w = .ok () w' ∧ w'.Among texts

section

variable {texts : List String}

theorem Succeeds.bind {write write' : Write Unit} (h : Succeeds texts write)
    (h' : Succeeds texts write') : Succeeds texts (write >>= fun _ => write') := by
  intro w hw
  obtain ⟨w₁, hrun, hw₁⟩ := h w hw
  obtain ⟨w₂, hrun', hw₂⟩ := h' w₁ hw₁
  exact ⟨w₂, Write.run_bind_ok.2 ⟨(), w₁, hrun, hrun'⟩, hw₂⟩

theorem succeeds_bytes (bs : List UInt8) : Succeeds texts (.bytes bs) :=
  fun _ hw => ⟨_, rfl, hw⟩

theorem succeeds_u8 (b : UInt8) : Succeeds texts (.u8 b) := succeeds_bytes [b]

theorem succeeds_nat {n : Nat} (hn : n < sizeLimit) : Succeeds texts (.nat n) :=
  fun w hw => ⟨{ w with bytes := w.bytes ++ intBytes n }, Write.run_nat_ok.2 ⟨hn, rfl⟩, hw⟩

theorem succeeds_bool (b : Bool) : Succeeds texts (.bool b) := succeeds_u8 _

theorem succeeds_each {write : α → Write Unit} : ∀ items : List α,
    (∀ a ∈ items, Succeeds texts (write a)) → Succeeds texts (Write.each write items)
  | [], _ => fun w hw => ⟨w, rfl, hw⟩
  | a :: rest, h =>
    (h a (by simp)).bind (succeeds_each rest fun b hb => h b (by simp [hb]))

/-- Different strings are written under different numbers, so there are not too many of them. -/
theorem Writer.Among.length_le {w : Writer} (hw : w.Among texts) :
    w.strings.length ≤ texts.dedup.length := by
  have hsub : w.strings ⊆ texts.dedup := fun s hs => List.mem_dedup.2 (hw.2 s hs)
  exact (List.subperm_of_subset hw.1 hsub).length_le

theorem succeeds_string (hdistinct : texts.dedup.length < sizeLimit) {s : String}
    (hs : s ∈ texts) (hsize : s.utf8ByteSize < sizeLimit) : Succeeds texts (.string s) := by
  intro w hw
  have hcount := hw.length_le
  rw [Write.run_string]
  cases hfind : w.strings.findIdx? (· == s) with
  | some i =>
    obtain ⟨hi, -⟩ := List.findIdx?_eq_some_iff_getElem.1 hfind
    exact succeeds_nat (by omega) w hw
  | none =>
    have hnew : s ∉ w.strings := by
      intro hmem
      have := List.findIdx?_eq_none_iff.1 hfind s hmem
      simp at this
    have hw' : Writer.Among texts { w with strings := w.strings ++ [s] } := by
      refine ⟨List.nodup_append.2 ⟨hw.1, by simp, by grind⟩, ?_⟩
      simp only [List.mem_append, List.mem_singleton]
      rintro t (ht | rfl)
      · exact hw.2 t ht
      · exact hs
    exact (succeeds_nat (by omega)).bind
      ((succeeds_nat hsize).bind (succeeds_bytes _)) _ hw'

/-! ## The pieces of a dump -/

theorem succeeds_literal (hdistinct : texts.dedup.length < sizeLimit) {v : Value}
    (hv : v.isLiteral = true) (ht : ∀ s ∈ (OpCode.literal v).texts, s ∈ texts)
    (hs : ∀ s ∈ (OpCode.literal v).texts, s.utf8ByteSize < sizeLimit) :
    Succeeds texts (writeLiteral v) := by
  cases v with
  | nil => exact succeeds_u8 0
  | boolean b => cases b <;> exact succeeds_u8 _
  | number n => exact (succeeds_u8 3).bind (succeeds_bytes _)
  | string s =>
    have hstring := succeeds_string hdistinct (ht s (by simp [OpCode.texts]))
      (hs s (by simp [OpCode.texts]))
    exact (succeeds_u8 4).bind hstring
  | _ => cases hv

theorem succeeds_symbol (hdistinct : texts.dedup.length < sizeLimit) : ∀ s : Symbol,
    (∀ n ∈ s.sizes, n < sizeLimit) → (∀ t ∈ s.texts, t ∈ texts) →
      (∀ t ∈ s.texts, t.utf8ByteSize < sizeLimit) → Succeeds texts (writeSymbol s) := by
  intro s hn ht hs
  induction s with
  | «local» name slot =>
    simp only [Symbol.sizes, Symbol.texts, List.forall_mem_singleton] at hn ht hs
    exact (succeeds_u8 0).bind ((succeeds_string hdistinct ht hs).bind (succeeds_nat hn))
  | upvalue name i =>
    simp only [Symbol.sizes, Symbol.texts, List.forall_mem_singleton] at hn ht hs
    exact (succeeds_u8 1).bind ((succeeds_string hdistinct ht hs).bind (succeeds_nat hn))
  | global name env ih =>
    simp only [Symbol.sizes, Symbol.texts, List.forall_mem_cons] at hn ht hs
    exact (succeeds_u8 2).bind ((succeeds_string hdistinct ht.1 hs.1).bind (ih hn ht.2 hs.2))
  | defaultEnv => exact succeeds_u8 3

theorem succeeds_span {span : Option Span} (h : ∀ n ∈ span.toList.flatMap Span.sizes, n < sizeLimit) :
    Succeeds texts (writeSpan span) := by
  cases span with
  | none => exact succeeds_bool false
  | some s =>
    simp only [Option.toList_some, List.flatMap_cons, List.flatMap_nil, List.append_nil, Span.sizes,
      List.forall_mem_cons] at h
    obtain ⟨hfromLine, hfromColumn, htoLine, htoColumn, -⟩ := h
    exact (succeeds_bool true).bind ((succeeds_nat hfromLine).bind ((succeeds_nat hfromColumn).bind
      ((succeeds_nat htoLine).bind ((succeeds_nat htoColumn).bind (succeeds_u8 _)))))

/-- An address in the function, its end included. -/
theorem succeeds_address {entry length a : Nat} (hlength : length < sizeLimit) (h₁ : entry ≤ a)
    (h₂ : a ≤ entry + length) : Succeeds texts (relative entry length a >>= Write.nat) := by
  have hin : a - entry ≤ length := by omega
  have hrel : relative entry length a = pure (a - entry) := by simp [relative, h₁, hin]
  rw [hrel, pure_bind]
  exact succeeds_nat (Nat.lt_of_le_of_lt hin hlength)

/-- An operation whose sizes are bounded, whose literal is plain and whose addresses lie in the
function can be written. -/
theorem succeeds_op (hdistinct : texts.dedup.length < sizeLimit) {entry length : Nat} {op : OpCode}
    (hlength : length < sizeLimit) (hplain : ∀ v, op = .literal v → v.isLiteral = true)
    (haddresses : ∀ a ∈ op.addresses, entry ≤ a ∧ a ≤ entry + length)
    (hn : ∀ n ∈ op.sizes, n < sizeLimit) (ht : ∀ t ∈ op.texts, t ∈ texts)
    (hs : ∀ t ∈ op.texts, t.utf8ByteSize < sizeLimit) :
    Succeeds texts (writeOp entry length op) := by
  have haddress : ∀ a ∈ op.addresses, Succeeds texts (relative entry length a >>= Write.nat) := by
    intro a ha
    exact succeeds_address hlength (haddresses a ha).1 (haddresses a ha).2
  have hstring : ∀ t ∈ op.texts, Succeeds texts (.string t) := fun t hmem =>
    succeeds_string hdistinct (ht t hmem) (hs t hmem)
  have hnat : ∀ n ∈ op.sizes, Succeeds texts (.nat n) := fun n hmem => succeeds_nat (hn n hmem)
  cases op with
  | literal v => exact (succeeds_u8 4).bind (succeeds_literal hdistinct (hplain v rfl) ht hs)
  | header name kind n =>
    exact (succeeds_u8 1).bind ((hstring name (by simp [OpCode.texts])).bind
      ((succeeds_u8 _).bind (hnat n (by simp [OpCode.sizes]))))
  | beginFn locals =>
    exact (succeeds_u8 2).bind ((hnat locals.length (by simp [OpCode.sizes])).bind
      (succeeds_each locals hstring))
  | load s => exact (succeeds_u8 7).bind (succeeds_symbol hdistinct s hn ht hs)
  | store s i =>
    simp only [OpCode.sizes, List.forall_mem_cons] at hn
    exact (succeeds_u8 8).bind
      ((succeeds_symbol hdistinct s hn.2 ht hs).bind (succeeds_nat hn.1))
  | closure target captures =>
    simp only [OpCode.sizes, OpCode.texts, List.forall_mem_cons, List.mem_flatMap] at hn ht hs
    have hcaptures : ∀ s ∈ captures, Succeeds texts (writeSymbol s) := by
      intro s hmem
      refine succeeds_symbol hdistinct s ?_ ?_ ?_
      · exact fun n hsn => hn.2 n ⟨s, hmem, hsn⟩
      · exact fun t hst => ht t ⟨s, hmem, hst⟩
      · exact fun t hst => hs t ⟨s, hmem, hst⟩
    exact (succeeds_u8 10).bind ((haddress target (by simp [OpCode.addresses])).bind
      ((succeeds_nat hn.1).bind (succeeds_each captures hcaptures)))
  | args n varargs =>
    exact (succeeds_u8 3).bind ((hnat n (by simp [OpCode.sizes])).bind (succeeds_bool varargs))
  | «local» slot i =>
    exact (succeeds_u8 9).bind ((hnat slot (by simp [OpCode.sizes])).bind
      (hnat i (by simp [OpCode.sizes])))
  | tableAppend i expand =>
    exact (succeeds_u8 25).bind ((hnat i (by simp [OpCode.sizes])).bind (succeeds_bool expand))
  | method name => exact (succeeds_u8 13).bind (hstring name (by simp [OpCode.texts]))
  | binary op =>
    have hcode : op.code < sizeLimit := by cases op <;> decide
    exact (succeeds_u8 19).bind (succeeds_nat hcode)
  | pop n | copy n | call n | ret n | indexSet n | makeTuple n | forVar n =>
    exact (succeeds_u8 _).bind (hnat n (by simp [OpCode.sizes]))
  | jump t | jumpIfFalse t | jumpFalseOrPop t | jumpTrueOrPop t | forLoop t | iterCheck t =>
    exact (succeeds_u8 _).bind (haddress t (by simp [OpCode.addresses, OpCode.jumpTarget?]))
  | _ => exact succeeds_u8 _

/-- A function whose sizes are bounded, with plain literals and addresses of its own, can be
written. -/
theorem succeeds_function {entry : Nat} (hasEnv : Bool) {body : List Instruction}
    (hsizes : SizesBounded body)
    (hplain : ∀ i ∈ body, ∀ v, i.op = .literal v → v.isLiteral = true)
    (haddresses : ∀ i ∈ body, ∀ a ∈ i.op.addresses, entry ≤ a ∧ a ≤ entry + body.length) :
    ∃ w, writeFunction entry hasEnv body {} = .ok () w := by
  have hinstruction : ∀ i ∈ body, Succeeds (body.flatMap (·.op.texts))
      (writeInstruction entry body.length i) := by
    intro i hi
    have hn := hsizes.sizes i hi
    simp only [Instruction.sizes, List.mem_append] at hn
    have hop := succeeds_op hsizes.distinct hsizes.length (hplain i hi) (haddresses i hi)
      (fun n hn' => hn n (.inl hn')) (fun t ht => List.mem_flatMap.2 ⟨i, hi, ht⟩) (hsizes.texts i hi)
    exact hop.bind (succeeds_span fun n hn' => hn n (.inr hn'))
  have hall := (succeeds_bytes magic).bind ((succeeds_u8 version).bind ((succeeds_bool hasEnv).bind
    ((succeeds_nat hsizes.length).bind (succeeds_each body hinstruction))))
  obtain ⟨w, hrun, -⟩ := hall {} ⟨List.nodup_nil, by simp⟩
  exact ⟨w, hrun⟩

end

/-- What can be put into a dump. -/
inductive Item where
  | u8 (b : UInt8)
  | int (v : Int)
  | size (n : Nat)
  | bool (b : Bool)
  | number (n : Number)
  | string (s : String)
deriving DecidableEq, Repr

namespace Item

/-- What a reader has to know of an item. -/
inductive Kind where
  | u8 | int | size | bool | number | string
deriving DecidableEq, Repr

def kind : Item → Kind
  | u8 _ => .u8
  | int _ => .int
  | size _ => .size
  | bool _ => .bool
  | number _ => .number
  | string _ => .string

def write : Item → Write Unit
  | u8 b => .u8 b
  | int v => .int v
  | size n => .nat n
  | bool b => .bool b
  | number n => .number n
  | string s => .string s

def Kind.read : Kind → Read Item
  | u8 => do return .u8 (← .u8)
  | int => do return .int (← .int)
  | size => do return .size (← .nat)
  | bool => do return .bool (← .bool)
  | number => do return .number (← .number)
  | string => do return .string (← .string)

/-- Read items of given kinds, one after the other. -/
def readAll (kinds : List Kind) : Read (List Item) := kinds.mapM Kind.read

/-- Integers have thirty-two bits, and strings have no more bytes than a size can say. -/
def Proper : Item → Prop
  | int v => -2147483648 ≤ v ∧ v < 2147483648
  | string s => s.utf8ByteSize < sizeLimit
  | _ => True

instance : DecidablePred Proper
  | int v => inferInstanceAs (Decidable (-2147483648 ≤ v ∧ v < 2147483648))
  | string s => inferInstanceAs (Decidable (s.utf8ByteSize < sizeLimit))
  | u8 _ | size _ | bool _ | number _ => .isTrue trivial

/-- The string of an item. -/
def text? : Item → Option String
  | string s => some s
  | _ => none

/-- How the writing of an item ends: only a size can be too large. -/
def outcome : Item → Except DumpError Unit
  | size n =>
    if n ≤ 2147483647 then .ok () else .error (.malformed s!"value {n} is too large to dump")
  | _ => .ok ()

end Item

/-- Put items one after the other, each where the one before left the writer, also where that was
refused. Gives how each of them ended and the writer behind the last one. -/
def Writer.putAll (w : Writer) : List Item → List (Except DumpError Unit) × Writer
  | [] => ([], w)
  | i :: rest => match i.write w with
    | .ok () w' => let (outcomes, last) := w'.putAll rest; (.ok () :: outcomes, last)
    | .error e w' => let (outcomes, last) := w'.putAll rest; (.error e :: outcomes, last)

/-- The items that were not refused. -/
def accepted (items : List Item) (outcomes : List (Except DumpError Unit)) : List Item :=
  (items.zip outcomes).filterMap fun (i, outcome) => outcome.toOption.map fun () => i

/-! ## One item -/

/-- A refused item leaves the writer as it was. -/
theorem Item.run_error {i : Item} {e : DumpError} (h : i.outcome = .error e) (w : Writer) :
    i.write w = .error e w := by
  cases i with
  | size n =>
    simp only [outcome] at h
    split at h
    · cases h
    · next hn =>
      cases h
      have hlarge : ¬ n < 2147483648 := by omega
      simp only [write, Write.nat, hlarge, if_false]
      rfl
  | _ => cases h

/-- An item that is not too large can be written as long as there are not too many strings. -/
theorem Item.succeeds {texts : List String} (hdistinct : texts.dedup.length < sizeLimit) {i : Item}
    (h : i.outcome = .ok ()) (hproper : i.Proper) (htext : ∀ s, i.text? = some s → s ∈ texts) :
    Succeeds texts i.write := by
  cases i with
  | u8 b => exact succeeds_u8 b
  | int v => exact succeeds_bytes _
  | size n =>
    simp only [outcome] at h
    split at h
    · exact succeeds_nat (by unfold sizeLimit; omega)
    · cases h
  | bool b => exact succeeds_bool b
  | number n => exact succeeds_bytes _
  | string s => exact succeeds_string hdistinct (htext s rfl) hproper

theorem Item.codes {i : Item} (h : i.Proper) : Codes i.write i.kind.read i := by
  cases i with
  | u8 b => exact (codes_u8 b).map Item.u8
  | int v => exact (codes_int h.1 h.2).map Item.int
  | size n => exact (codes_nat n).map Item.size
  | bool b => exact (codes_bool b).map Item.bool
  | number n => exact (codes_number n).map Item.number
  | string s => exact (codes_string s).map Item.string

/-! ## Many items -/

namespace Writer

variable {w w' : Writer} {i : Item} {items rest : List Item} {e : DumpError}

theorem putAll_ok (h : i.write w = .ok () w') :
    w.putAll (i :: rest) = (.ok () :: (w'.putAll rest).1, (w'.putAll rest).2) := by
  rw [putAll, h]

theorem putAll_error (h : i.write w = .error e w') :
    w.putAll (i :: rest) = (.error e :: (w'.putAll rest).1, (w'.putAll rest).2) := by
  rw [putAll, h]

/-- What comes behind is put where the writer stands then. -/
theorem putAll_append : ∀ {w : Writer} {items rest : List Item},
    (w.putAll (items ++ rest)).2 = ((w.putAll items).2.putAll rest).2
  | _, [], _ => rfl
  | w, i :: items, rest => by
    rw [List.cons_append]
    cases h : i.write w with
    | ok u w' =>
      rw [putAll_ok h, putAll_ok h]
      exact putAll_append
    | error e w' =>
      rw [putAll_error h, putAll_error h]
      exact putAll_append

/-- Each item ends as its own size makes it, and the writer adds bytes from which the accepted items
are read. The induction carries that the strings so far are among the given ones. -/
theorem putAll_spec {texts : List String} (hdistinct : texts.dedup.length < sizeLimit) :
    ∀ {items : List Item} {w : Writer}, w.Among texts → (∀ i ∈ items, i.Proper) →
      (∀ i ∈ items, ∀ s, i.text? = some s → s ∈ texts) →
      (w.putAll items).1 = items.map Item.outcome ∧
        ∃ out, (w.putAll items).2.bytes.toList = w.bytes.toList ++ out ∧
          ∀ tail, (Item.readAll ((accepted items (w.putAll items).1).map Item.kind)).run
              ⟨out ++ tail, w.strings.toArray⟩ =
            .ok (accepted items (w.putAll items).1) ⟨tail, (w.putAll items).2.strings.toArray⟩
  | [], w, _, _, _ => ⟨rfl, [], by simp [putAll], fun _ => rfl⟩
  | i :: rest, w, hw, hproper, htexts => by
    rw [List.forall_mem_cons] at hproper htexts
    cases hi : i.outcome with
    | error e =>
      obtain ⟨houtcomes, out, hbytes, hread⟩ := putAll_spec hdistinct hw hproper.2 htexts.2
      rw [putAll_error (i.run_error hi w), List.map_cons, hi]
      exact ⟨congrArg _ houtcomes, out, hbytes, hread⟩
    | ok u =>
      obtain ⟨w', hrun, hw'⟩ := i.succeeds hdistinct hi hproper.1 htexts.1 w hw
      obtain ⟨first, hfirst, hreadFirst⟩ := i.codes hproper.1 w w' hrun
      obtain ⟨houtcomes, out, hbytes, hread⟩ := putAll_spec hdistinct hw' hproper.2 htexts.2
      rw [putAll_ok hrun, List.map_cons, hi]
      refine ⟨congrArg _ houtcomes, first ++ out, ?_, fun tail => ?_⟩
      · rw [hbytes, hfirst, List.append_assoc]
      · have haccepted : ∀ outcomes, accepted (i :: rest) (.ok () :: outcomes) =
            i :: accepted rest outcomes := fun _ => rfl
        unfold Item.readAll at hread ⊢
        rw [haccepted, List.map_cons, List.mapM_cons, List.append_assoc,
          Read.run_bind_ok _ (hreadFirst _), Read.run_bind_ok _ (hread tail)]
        rfl

end Writer

/-- Items one after the other are read back as they were written. Only a size that is too large is
refused, and nothing is written for it; from the bytes of the others a reader that is told their
kinds takes exactly them, and no byte is left. -/
theorem items_read_back (items : List Item) (hproper : ∀ i ∈ items, i.Proper)
    (hdistinct : (items.filterMap Item.text?).dedup.length < sizeLimit) :
    let (outcomes, w) := Writer.putAll {} items
    outcomes = items.map Item.outcome ∧
      (∀ before n behind, items = before ++ .size n :: behind → 2147483647 < n →
        (Writer.putAll {} (before ++ [.size n])).2 = (Writer.putAll {} before).2) ∧
      (Item.readAll ((accepted items outcomes).map Item.kind)).run { bytes := w.bytes.toList } =
        .ok (accepted items outcomes) { bytes := [], strings := w.strings.toArray } := by
  have hnone : Writer.Among (items.filterMap Item.text?) {} := ⟨List.nodup_nil, by simp⟩
  have htexts : ∀ i ∈ items, ∀ s, i.text? = some s → s ∈ items.filterMap Item.text? :=
    fun i hi s hs => List.mem_filterMap.2 ⟨i, hi, hs⟩
  obtain ⟨houtcomes, out, hbytes, hread⟩ := Writer.putAll_spec hdistinct hnone hproper htexts
  refine ⟨houtcomes, fun before n behind _ hn => ?_, ?_⟩
  · have hrefused : (Item.size n).outcome =
        .error (.malformed s!"value {n} is too large to dump") := if_neg (by omega)
    rw [Writer.putAll_append, Writer.putAll_error (Item.run_error hrefused _)]
    rfl
  · have hout : (Writer.putAll {} items).2.bytes.toList = out := by simpa using hbytes
    have hall := hread []
    rw [List.append_nil, ← hout] at hall
    exact hall

/-- Integers that look like marks, a size that is too large, and a string twice. -/
theorem items_read_back_marks :
    let items : List Item := [.int 126, .int (-129), .size 2147483648, .string "print", .bool true,
      .string "print", .int 127, .size 2147483647]
    let (outcomes, w) := Writer.putAll {} items
    (∀ i ∈ items, i.Proper) ∧ (items.filterMap Item.text?).dedup.length < sizeLimit ∧
      outcomes = items.map Item.outcome ∧
      (Writer.putAll {} [.int 126, .int (-129), .size 2147483648]).2 =
        (Writer.putAll {} [.int 126, .int (-129)]).2 ∧
      (Item.readAll [.int, .int, .string, .bool, .string, .int, .size]).run
          { bytes := w.bytes.toList } =
        .ok [.int 126, .int (-129), .string "print", .bool true, .string "print", .int 127,
          .size 2147483647] { bytes := [], strings := w.strings.toArray } := by
  intro items
  have hproper : ∀ i ∈ items, i.Proper := by decide
  have hdistinct : (items.filterMap Item.text?).dedup.length < sizeLimit := by decide
  obtain ⟨houtcomes, hrefused, hread⟩ := items_read_back items hproper hdistinct
  have hlast := hrefused [.int 126, .int (-129)] 2147483648 _ rfl (by decide)
  rw [houtcomes] at hread
  exact ⟨hproper, hdistinct, houtcomes, hlast, hread⟩

end Dump

end LuaMachine
