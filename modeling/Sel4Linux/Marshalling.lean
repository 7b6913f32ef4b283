import Sel4Linux.Tcb

/-!
What the kernel finds of a capability invocation. The label, the length and the
number of extra capabilities come back out of the info word, every message
register is in its CPU register or at its byte offset in the buffer, every extra
capability is behind them, and the other fields of the buffer stay
(`invocations_marshalled`).
-/
namespace Sel4Linux.Marshalling
open Sel4Linux.Bytes Sel4Linux.Ipc Sel4Linux.Abi Sel4Linux.Tcb
set_option linter.unusedSimpArgs false

/-- Message and capabilities aside, the buffer is the same. -/
structure Kept (before after : IpcBuffer) : Prop where
  tag : after.tag = before.tag
  userData : after.userData = before.userData
  receiveCnode : after.receiveCnode = before.receiveCnode
  receiveIndex : after.receiveIndex = before.receiveIndex
  receiveDepth : after.receiveDepth = before.receiveDepth

/-- What the kernel finds at its entry: the fields of the info word, the message and the capabilities in their
    places, and the other fields of the buffer as they were. -/
structure Marshalled (label : BitVec 32) (mrs extraCaps : List Word) (before : IpcBuffer) (entry : Cpu × IpcBuffer) : Prop where
  label : infoLabel entry.1.rsi = label
  length : infoLength entry.1.rsi = mrs.length
  extras : infoExtraCaps entry.1.rsi = extraCaps.length
  registers : ∀ i < 4, i < mrs.length → [entry.1.r10,entry.1.r8,entry.1.r9,entry.1.r15][i]? = mrs[i]?
  message : ∀ i < mrs.length, 4 ≤ i → entry.2.wordAt (8 + 8 * i) = mrs[i]?
  capabilities : ∀ j < extraCaps.length, entry.2.wordAt (976 + 8 * j) = extraCaps[j]?
  kept : Kept before entry.2

/-! ## The buffer -/

theorem wordAt_message (ib : IpcBuffer) {i : Nat} (inside : i < 120) : ib.wordAt (8 + 8 * i) = some (ib.readMr i) := by
  have length : ib.msg.toList.length = 120 := Vector.length_toList
  have inMsg : i < IPC_BUFFER_MSG_REGS := inside
  rw [IpcBuffer.wordAt,if_pos (by omega),show (8 + 8 * i) / 8 = i + 1 by omega,IpcBuffer.words,IpcBuffer.readMr,dif_pos inMsg]
  simp only [List.cons_append,List.append_assoc,List.getElem?_cons_succ]
  rw [List.getElem?_append_left (by omega),List.getElem?_eq_getElem (by omega),Vector.getElem_toList]

theorem wordAt_capability (ib : IpcBuffer) {j : Nat} (few : j < 3) : ib.wordAt (976 + 8 * j) = ib.capsOrBadges[j]? := by
  have length : ib.msg.toList.length = 120 := Vector.length_toList
  have caps : ib.capsOrBadges.toList.length = 3 := Vector.length_toList
  rw [IpcBuffer.wordAt,if_pos (by omega),show (976 + 8 * j) / 8 = 121 + j + 1 by omega,IpcBuffer.words]
  simp only [List.cons_append,List.append_assoc,List.getElem?_cons_succ]
  rw [List.getElem?_append_right (by omega),show 121 + j - ib.msg.toList.length = j + 1 by omega,List.getElem?_cons_succ,
    List.getElem?_append_left (by omega),Vector.getElem?_toList]

/-- MR4 to MR9 at their byte offsets are the message registers of these numbers. -/
theorem storeMrs_eq (ib : IpcBuffer) (mr4 mr5 mr6 mr7 mr8 mr9 : Word) : storeMrs ib 8 mr4 mr5 mr6 mr7 mr8 mr9 =
    (((((ib.writeMr 4 mr4).writeMr 5 mr5).writeMr 6 mr6).writeMr 7 mr7).writeMr 8 mr8).writeMr 9 mr9 := rfl

theorem kept_writeMr (ib : IpcBuffer) (i : Nat) (val : Word) : Kept ib (ib.writeMr i val) := by
  unfold IpcBuffer.writeMr
  split
  · exact ⟨rfl,rfl,rfl,rfl,rfl⟩
  · exact ⟨rfl,rfl,rfl,rfl,rfl⟩

theorem Kept.trans {ib₁ ib₂ ib₃ : IpcBuffer} (first : Kept ib₁ ib₂) (second : Kept ib₂ ib₃) : Kept ib₁ ib₃ :=
  ⟨second.tag.trans first.tag,second.userData.trans first.userData,second.receiveCnode.trans first.receiveCnode,
    second.receiveIndex.trans first.receiveIndex,second.receiveDepth.trans first.receiveDepth⟩

theorem kept_fillMrs (ib : IpcBuffer) (mrs : List Word) (start stop : Nat) : Kept ib (fillMrs ib mrs start stop) := by
  unfold fillMrs
  generalize List.range' start (stop - start) = is
  induction is generalizing ib with
  | nil => exact ⟨rfl,rfl,rfl,rfl,rfl⟩
  | cons i rest ih => exact (kept_writeMr ib i _).trans (ih _)

theorem kept_storeMrs (ib : IpcBuffer) (mr4 mr5 mr6 mr7 mr8 mr9 : Word) : Kept ib (storeMrs ib 8 mr4 mr5 mr6 mr7 mr8 mr9) := by
  rw [storeMrs_eq]
  exact (kept_writeMr ib 4 mr4).trans <| (kept_writeMr _ 5 mr5).trans <| (kept_writeMr _ 6 mr6).trans <|
    (kept_writeMr _ 7 mr7).trans <| (kept_writeMr _ 8 mr8).trans <| kept_writeMr _ 9 mr9

theorem readMr_storeMrs (ib : IpcBuffer) (mrs : List Word) {i : Nat} (low : 4 ≤ i) (high : i < 10) :
    (storeMrs ib 8 (mrs.getD 4 0) (mrs.getD 5 0) (mrs.getD 6 0) (mrs.getD 7 0) (mrs.getD 8 0) (mrs.getD 9 0)).readMr i =
      mrs.getD i 0 := by
  rw [storeMrs_eq]
  interval_cases i
  all_goals simp [readMr_writeMr,IPC_BUFFER_MSG_REGS]

/-- The buffer once the capabilities are in it. -/
def storeCaps (ib : IpcBuffer) (extraCaps : List Word) : IpcBuffer :=
  let ib := if 1 ≤ extraCaps.length then ib.store 976 (extraCaps.getD 0 0) else ib
  let ib := if 2 ≤ extraCaps.length then ib.store 984 (extraCaps.getD 1 0) else ib
  if 3 ≤ extraCaps.length then ib.store 992 (extraCaps.getD 2 0) else ib

theorem storeCaps_spec (ib : IpcBuffer) {extraCaps : List Word} (few : extraCaps.length ≤ 3) :
    Kept ib (storeCaps ib extraCaps) ∧ ∀ j < extraCaps.length, (storeCaps ib extraCaps).capsOrBadges[j]? = extraCaps[j]? := by
  rcases extraCaps with _ | ⟨cap0,_ | ⟨cap1,_ | ⟨cap2,_ | ⟨cap3,rest⟩⟩⟩⟩
  · exact ⟨⟨rfl,rfl,rfl,rfl,rfl⟩,fun j inside => absurd inside (Nat.not_lt_zero j)⟩
  · refine ⟨⟨rfl,rfl,rfl,rfl,rfl⟩,fun j inside => ?_⟩
    obtain rfl : j = 0 := by simpa using inside
    simp [storeCaps,IpcBuffer.store]
  · refine ⟨⟨rfl,rfl,rfl,rfl,rfl⟩,fun j inside => ?_⟩
    have two : j < 2 := inside
    interval_cases j
    · simp [storeCaps,IpcBuffer.store,Vector.getElem?_setIfInBounds]
    · simp [storeCaps,IpcBuffer.store,Vector.getElem?_setIfInBounds]
  · refine ⟨⟨rfl,rfl,rfl,rfl,rfl⟩,fun j inside => ?_⟩
    have three : j < 3 := inside
    interval_cases j
    · simp [storeCaps,IpcBuffer.store,Vector.getElem?_setIfInBounds]
    · simp [storeCaps,IpcBuffer.store,Vector.getElem?_setIfInBounds]
    · simp [storeCaps,IpcBuffer.store,Vector.getElem?_setIfInBounds]
  · simp only [List.length_cons] at few
    omega

/-! ## Invocations -/

variable {label : BitVec 32} {mrs extraCaps : List Word} {before : IpcBuffer} {entry : Cpu × IpcBuffer}

theorem marshalled_of (info : entry.1.rsi = packedInfo label extraCaps.length mrs.length) (short : mrs.length ≤ 120)
    (few : extraCaps.length ≤ 3) (places : ∀ i < mrs.length, mrOf entry.1 entry.2 i = mrs.getD i 0)
    (stored : ∀ j < extraCaps.length, entry.2.capsOrBadges[j]? = extraCaps[j]?) (kept : Kept before entry.2) :
    Marshalled label mrs extraCaps before entry := by
  obtain ⟨isLabel,isLength,isExtras⟩ := @packedInfo_fields label extraCaps.length mrs.length (by omega) (by omega)
  have word : ∀ i < mrs.length, some (mrOf entry.1 entry.2 i) = mrs[i]? := by
    intro i inside
    rw [places i inside,List.getD_eq_getElem?_getD,List.getElem?_eq_getElem inside]
    rfl
  refine ⟨by rw [info]; exact isLabel,by rw [info]; exact isLength,by rw [info]; exact isExtras,?_,?_,?_,kept⟩
  · intro i low inside
    rw [← word i inside]
    interval_cases i <;> rfl
  · intro i inside high
    rw [← word i inside,wordAt_message _ (by omega),mrOf_buffer high]
  · intro j inside
    rw [wordAt_capability _ (by omega)]
    exact stored j inside

variable (K : Trap) (m : Machine)

theorem capInvoke_marshalled (dest : Word) (label : BitVec 32) {mrs : List Word} (short : mrs.length ≤ 120) :
    ∃ entry, (capInvoke K m dest label mrs).2.entries = m.entries ++ [entry] ∧ entry.1.rdi = dest ∧
      Marshalled label mrs [] m.ib entry := by
  obtain ⟨entry,entered,isDest,message⟩ := capInvoke_presents K m dest label short
  have plain : (label.setWidth 64 <<< 12) ||| BitVec.ofNat 64 mrs.length = packedInfo label 0 mrs.length := by simp [packedInfo]
  obtain ⟨info,places⟩ := (presented_iff (infoLength_label label (by omega)).symm).mp message
  refine ⟨entry,entered,isDest,marshalled_of (info.trans plain) short (by decide) places ?_ ?_⟩
  · intro j inside
    exact absurd inside (Nat.not_lt_zero j)
  · have explicit : (capInvoke K m dest label mrs).2.entries = m.entries ++ [_] := rfl
    rw [entered] at explicit
    rw [List.singleton_inj.mp (List.append_cancel_left explicit)]
    exact (kept_fillMrs m.ib mrs 10 _).trans (kept_storeMrs _ _ _ _ _ _ _)

theorem capInvokeWithExtra_marshalled (dest : Word) (label : BitVec 32) {mrs extraCaps : List Word} (short : mrs.length ≤ 10)
    (few : extraCaps.length ≤ 3) :
    ∃ entry, (capInvokeWithExtra K m dest label mrs extraCaps).2.entries = m.entries ++ [entry] ∧ entry.1.rdi = dest ∧
      Marshalled label mrs extraCaps m.ib entry := by
  obtain ⟨capsKept,stored⟩ := storeCaps_spec m.ib few
  refine ⟨_,rfl,rfl,marshalled_of rfl (by omega) few ?_ ?_ ?_⟩
  · intro i inside
    by_cases register : i < 4
    · interval_cases i <;> rfl
    · rw [mrOf_buffer (by omega)]
      exact readMr_storeMrs _ mrs (by omega) (by omega)
  · exact stored
  · exact capsKept.trans (kept_storeMrs _ _ _ _ _ _ _)

/-- For every destination, label and message within the limits: `cap_invoke` and `cap_invoke_with_extra` enter
    the kernel once, with exactly this label, message and capabilities in their places. A frame of at most 20
    registers that is to be written in full is among the message as it is. -/
theorem invocations_marshalled :
    (∀ dest label mrs, mrs.length ≤ 120 → ∃ entry, (capInvoke K m dest label mrs).2.entries = m.entries ++ [entry] ∧
      entry.1.rdi = dest ∧ Marshalled label mrs [] m.ib entry) ∧
    (∀ dest label mrs extraCaps, mrs.length ≤ 10 → extraCaps.length ≤ 3 →
      ∃ entry, (capInvokeWithExtra K m dest label mrs extraCaps).2.entries = m.entries ++ [entry] ∧
        entry.1.rdi = dest ∧ Marshalled label mrs extraCaps m.ib entry) ∧
    ∀ tcb resume archFlags count regFrame, regFrame.length ≤ 20 →
      ∃ entry, (capInvoke K m tcb 3 (tcbWriteRegisters tcb resume archFlags count regFrame).mrs).2.entries =
          m.entries ++ [entry] ∧ mrOf entry.1 entry.2 1 = BitVec.ofNat 64 (min regFrame.length count.toNat) ∧
        ∀ i < min regFrame.length count.toNat, some (mrOf entry.1 entry.2 (2 + i)) = regFrame[i]? := by
  refine ⟨fun dest label mrs short => capInvoke_marshalled K m dest label short,
    fun dest label mrs extraCaps short few => capInvokeWithExtra_marshalled K m dest label short few,?_⟩
  intro tcb resume archFlags count regFrame twenty
  obtain ⟨n,isCount⟩ : ∃ n, min regFrame.length count.toNat = n := ⟨_,rfl⟩
  obtain ⟨flags,words⟩ : ∃ flags, (tcbWriteRegisters tcb resume archFlags count regFrame).mrs =
      flags :: BitVec.ofNat 64 n :: regFrame.take n := ⟨_,by rw [← isCount]; rfl⟩
  have length : (tcbWriteRegisters tcb resume archFlags count regFrame).mrs.length = n + 2 := by
    rw [words,List.length_cons,List.length_cons,List.length_take]
    omega
  obtain ⟨entry,entered,_,message⟩ := capInvoke_presents K m tcb 3
    (show (tcbWriteRegisters tcb resume archFlags count regFrame).mrs.length ≤ 120 by omega)
  obtain ⟨_,places⟩ := (presented_iff (infoLength_label 3 (by omega)).symm).mp message
  rw [isCount]
  refine ⟨entry,entered,?_,?_⟩
  · rw [places 1 (by omega),words]
    rfl
  · intro i inside
    rw [places (2 + i) (by omega),words,Nat.add_comm 2 i]
    simp only [List.getD_cons_succ]
    rw [List.getD_eq_getElem?_getD,List.getElem?_take,if_pos inside,List.getElem?_eq_getElem (by omega)]
    rfl

/-- A kernel that gives everything back, and a thread that has not entered it. -/
def fresh : Machine := ⟨Cpu.filled 0,IpcBuffer.new,[]⟩

/-- A message of 22 registers, one with a capability, and a frame. -/
theorem invocations_marshalled_fresh :
    (∃ entry, (capInvoke (fun cpu ib => (cpu,ib)) fresh 7 3 (List.replicate 22 5)).2.entries = [entry] ∧
      entry.1.rdi = 7 ∧ Marshalled 3 (List.replicate 22 5) [] IpcBuffer.new entry) ∧
    (∃ entry, (capInvokeWithExtra (fun cpu ib => (cpu,ib)) fresh 9 41 [0x5000,15,0] [3]).2.entries = [entry] ∧
      entry.1.rdi = 9 ∧ Marshalled 41 [0x5000,15,0] [3] IpcBuffer.new entry) ∧
    ∃ entry, (capInvoke (fun cpu ib => (cpu,ib)) fresh 100 3 (tcbWriteRegisters 100 false 0 18 [1,2,3]).mrs).2.entries =
        [entry] ∧ mrOf entry.1 entry.2 1 = BitVec.ofNat 64 (min [1,2,3].length (18 : BitVec 8).toNat) ∧
      ∀ i < min [1,2,3].length (18 : BitVec 8).toNat, some (mrOf entry.1 entry.2 (2 + i)) = [(1 : Word),2,3][i]? :=
  ⟨(invocations_marshalled (fun cpu ib => (cpu,ib)) fresh).1 7 3 (List.replicate 22 5) (by decide),
    (invocations_marshalled (fun cpu ib => (cpu,ib)) fresh).2.1 9 41 [0x5000,15,0] [3] (by decide) (by decide),
    (invocations_marshalled (fun cpu ib => (cpu,ib)) fresh).2.2 100 false 0 18 [1,2,3] (by decide)⟩

end Sel4Linux.Marshalling
