/-
MacroAssembler/Proofs/Decoding.lean

Reading code back, instruction by instruction.

The machine knows nothing of layouts.  It reads code from the front, skips the
immediate bytes behind each push opcode, and calls the rest instructions
(`decode`).  That it sees the instructions of a layout needs two things: no
plain opcode is a push opcode, which would swallow what follows, and every push
carries an immediate that its opcode tells the width of.  The second holds of
every program that is read from a text (`encodable_of_unfolds`): literals were
checked when they were read or resolved, and a measurement is a machine word.

Main result: `decode_code`.
-/
import MacroAssembler.Proofs.Linking
import MacroAssembler.Proofs.PositionalValues

namespace MacroAssembler

open Rendering Scope Expansion

/-! ### The decoder -/

/-- Bytes that are skipped behind an opcode: 1 to 32 for the push opcodes. -/
def Opcode.skip (byte : UInt8) : Nat :=
  if 0x60 ≤ byte ∧ byte ≤ 0x7f then byte.toNat - 0x5f else 0

/-- Decode code from the front: the offset and the opcode of each instruction,
and where the last one ends. -/
def decode (pos : Nat) : List UInt8 → List (Nat × UInt8) × Nat
  | [] => ([], pos)
  | byte :: rest =>
    let later := decode (pos + 1 + Opcode.skip byte) (rest.drop (Opcode.skip byte))
    ((pos, byte) :: later.1, later.2)
termination_by bytes => bytes.length
decreasing_by
  rw [List.length_drop, List.length_cons]
  omega

theorem decode_cons_append (pos : Nat) (byte : UInt8) {immediate : List UInt8}
    (h : immediate.length = Opcode.skip byte) (rest : List UInt8) :
    decode pos (byte :: (immediate ++ rest)) =
      ((pos, byte) :: (decode (pos + 1 + immediate.length) rest).1,
        (decode (pos + 1 + immediate.length) rest).2) := by
  rw [decode, ← h, List.drop_left]

/-! ### Layouts -/

namespace Placed

/-- The first byte of an instruction. -/
def head (p : Placed) : UInt8 :=
  match p.instr with
  | .opcode byte => byte
  | .push q => q.opcode
  | .dest _ => Opcode.jumpDest
  | .jumpRef _ | .tableRef _ => Opcode.push2

/-- The opcode tells how long the instruction is. -/
def SelfDelimiting (p : Placed) : Prop := Opcode.skip p.head + 1 = p.size

theorem bytes_cells (p : Placed) (value? : Option Nat) :
    ∃ immediate : List UInt8, (p.cells value?).map Cell.byte = p.head :: immediate ∧
      immediate.length + 1 = p.size := by
  have hlen := p.length_cells value?
  obtain ⟨node, index, offset, source, i⟩ := p
  refine ⟨((cells ⟨node, index, offset, source, i⟩ value?).map Cell.byte).tail, ?_, ?_⟩
  · cases i <;> simp [cells, head, Cell.ofBytes, Push.bytes]
  · have hpos := size_pos ⟨node, index, offset, source, i⟩
    rw [List.length_tail, List.length_map, hlen]
    omega

end Placed

/-- The instructions of a layout are those that the machine sees. -/
theorem decode_code (v : Placed → Option Nat) {pos : Nat} {l : List Placed} (hl : Laid pos l)
    (hself : ∀ p ∈ l, p.SelfDelimiting) :
    decode pos ((code v l).map Cell.byte) =
      (l.map fun p => (p.offset, p.head), pos + totalSize l) := by
  induction l generalizing pos with
  | nil =>
    show decode pos [] = _
    rw [decode]
    rfl
  | cons p l ih =>
    have hskip := hself p List.mem_cons_self
    obtain ⟨immediate, hbytes, hlen⟩ := p.bytes_cells (v p)
    have hwidth : immediate.length = Opcode.skip p.head := by
      rw [Placed.SelfDelimiting] at hskip
      omega
    -- what is skipped ends where the next instruction of the layout begins
    have hnext : pos + 1 + immediate.length = pos + p.size := by omega
    have hcode : (code v (p :: l)).map Cell.byte =
        p.head :: (immediate ++ (code v l).map Cell.byte) := by
      rw [← List.cons_append, ← hbytes, ← List.map_append]
      rfl
    rw [hcode, decode_cons_append pos p.head hwidth, hnext,
      ih hl.2 fun q hq => hself q (List.mem_cons_of_mem _ hq)]
    simp [hl.1, Nat.add_assoc]

/-! ### Widths of pushes -/

theorem Push.skip_opcode {q : Push} (h : q.Encodable) :
    Opcode.skip q.opcode = q.immediate.length := by
  obtain ⟨hpos, hle⟩ := h
  have hbase : Opcode.pushBase.toNat = 0x5f := rfl
  have hval : q.opcode.toNat = 0x5f + q.immediate.length := by
    rw [Push.opcode, UInt8.toNat_add, hbase, UInt8.toNat_ofNat']
    omega
  have hfrom : 0x60 ≤ q.opcode := by
    rw [UInt8.le_iff_toNat_le, hval]
    show 0x60 ≤ 0x5f + q.immediate.length
    omega
  have hto : q.opcode ≤ 0x7f := by
    rw [UInt8.le_iff_toNat_le, hval]
    show 0x5f + q.immediate.length ≤ 0x7f
    omega
  rw [Opcode.skip, if_pos ⟨hfrom, hto⟩, hval]
  omega

/-- A machine word has eight bytes. -/
theorem length_minimalBytes_of_word {n : Nat} (h : n < Numeral.wordBound) :
    (Numeral.minimalBytes n).length ≤ 8 :=
  (Numeral.length_minimalBytes_le_iff (by decide)).2 h

theorem Push.encodable_ofSize {n : Nat} (h : n < Numeral.wordBound) :
    (Push.ofSize n).Encodable :=
  ⟨Numeral.length_minimalBytes_pos n, Nat.le_trans (length_minimalBytes_of_word h) (by decide)⟩

/-! ### Pushes in trees -/

/-- A tree that fits is no longer than its bound. -/
theorem ExpansionTree.Within.size_le {bound : Nat} {t : ExpansionTree} {pos : Nat}
    (h : t.Within bound pos) : t.size = 0 ∨ pos + t.size ≤ bound := by
  induction t generalizing pos with
  | done => exact .inl rfl
  | instr source i rest ih =>
    have hrest := ih h.2
    have hi := h.1
    simp only [ExpansionTree.size]
    omega
  | inlined child rest _ ih =>
    have hrest := ih h.2.2
    have hchild := h.2.1
    simp only [ExpansionTree.size]
    omega
  | measured source child rest _ ih =>
    have hrest := ih h.2.2
    have hpush := h.2.1
    simp only [ExpansionTree.size]
    omega

/-- An argument is pushed if it is arithmetic and its value fits a push. -/
theorem resolve_eq_push_iff {r : Registry} {arg : String} {source : Nat} {q : Push} :
    Template.resolve r arg source = .ok (.push q) ↔
      Argument.isLiteral (Text.trim arg.toList) = true ∧
        ∃ n, Template.evaluate r (Text.trim arg.toList) = .ok n ∧ Push.encode n = .ok q := by
  rw [← Outcome.bind_eq_ok, ← Template.resolveLiteral, Template.resolve]
  by_cases hlit : Argument.isLiteral (Text.trim arg.toList) = true
  · simp only [hlit, true_and]
    rcases Template.resolveLiteral r (Text.trim arg.toList) with e | p <;> simp
  · simp only [hlit]
    rcases Opcode.ofMnemonic? (String.ofList (Text.trim arg.toList)) with - | byte
    · simp only [Template.resolveName]
      grind
    · simp

theorem encodable_of_resolve {r : Registry} {arg : String} {source : Nat} {q : Push}
    (h : Template.resolve r arg source = .ok (.push q)) : q.Encodable := by
  obtain ⟨-, n, -, hn⟩ := resolve_eq_push_iff.1 h
  exact Push.encodable_of_encode hn

theorem encodable_of_action {r : Registry} {m : Macro} {values : List String} {op : Operation}
    {q : Push} (hop : ∀ q, op.kind = .push q → q.Encodable)
    (h : action r m values op = .ok (.emit (.push q))) : q.Encodable := by
  obtain ⟨kind, source⟩ := op
  cases kind with
  | push q' =>
    obtain rfl : q' = q := by simpa [action] using h
    exact hop q' rfl
  | templateRef param =>
    simp only [action] at h
    split at h
    · cases h
    · rename_i arg _
      rcases hres : Template.resolve r arg source with e | res
      · rw [hres] at h
        cases h
      · rw [hres] at h
        -- of what an argument stands for, only a push is a push
        cases res with
        | push q' =>
          obtain rfl : q' = q := by simpa [Except.map, Action.ofResolved] using h
          exact encodable_of_resolve hres
        | _ => simp [Except.map, Action.ofResolved] at h
  | _ => simp [action] at h

/-- Every push in the layout of a tree can be encoded, when the pushes of the
bodies can and the code is no longer than a machine word counts. -/
theorem encodable_of_unfolds {r : Registry} (hr : r.PushesEncodable) {bound : Nat}
    (hbound : bound < Numeral.wordBound) {m : Macro} {values : List String} {ops : List Operation}
    {t : ExpansionTree} (ht : Unfolds r m values ops t)
    (hops : ∀ op ∈ ops, ∀ q, op.kind = .push q → q.Encodable) (index : Nat) {pos : Nat}
    (hwithin : t.Within bound pos) :
    ∀ e ∈ t.layout index pos, ∀ q, e.instr = .push q → q.Encodable := by
  have hbody : ∀ {name m'}, r.getMacro? name = some m' →
      ∀ op ∈ m'.ops, ∀ q, op.kind = .push q → q.Encodable :=
    fun hm => hr _ (List.mem_of_find?_eq_some hm)
  induction ht generalizing index pos with
  | done =>
    intro e he
    cases he
  | instr ha _ ih =>
    intro e he q hq
    obtain ⟨hop, hops⟩ := List.forall_mem_cons.1 hops
    obtain rfl | he := List.mem_cons.1 he
    · obtain rfl : _ = Instr.push q := hq
      exact encodable_of_action hop ha
    · exact ih hops _ hwithin.2 e he q hq
  | inlined _ hm _ _ _ ihc ih =>
    intro e he q hq
    obtain ⟨-, hops⟩ := List.forall_mem_cons.1 hops
    obtain he | he := List.mem_append.1 he
    · obtain ⟨e', he', rfl⟩ := List.mem_map.1 he
      exact ihc (hbody hm) _ hwithin.1 e' he' q hq
    · exact ih hops _ hwithin.2.2 e he q hq
  | measured _ _ _ _ _ _ ih =>
    intro e he q hq
    obtain ⟨-, hops⟩ := List.forall_mem_cons.1 hops
    obtain rfl | he := List.mem_cons.1 he
    · -- the length that was measured is no more than the bound
      obtain rfl : Push.ofSize _ = q := by simpa using hq
      have hsize := hwithin.1.size_le
      exact Push.encodable_ofSize (by omega)
    · exact ih hops _ hwithin.2.2 e he q hq

end MacroAssembler
