import Sel4Linux.Overlay
import Sel4Linux.Rounds

/-!
The console as the root task's syscalls show it. write and writev put no more
than 4096 bytes of a buffer and 8192 bytes of a vector on it and return the full
length, so they report what they wrote exactly when nothing was cut off
(`console_reported_iff`). A line read from COM1 is edited as it is typed
(`line_edited`).
-/
namespace Sel4Linux.Console
open Sel4Linux.Bytes Sel4Linux.Ipc Sel4Linux.Client Sel4Linux.Emulation
open Sel4Linux.FaultLoop (beginning noService)
set_option linter.unusedSimpArgs false

variable {ω : Type}

/-! ## Writes -/

/-- The vectors of an array from number `v` on: where each starts, and its length. -/
def vectors (mem : Mem) (iov : Word) : Nat → Word → List (Word × Word)
  | 0, _ => []
  | n + 1, v => (loadWord mem (iov + v * 16),loadWord mem (iov + v * 16 + 8)) :: vectors mem iov n (v + 1)

/-- More than the length of any vector. -/
def WHOLE : Nat := 2 ^ 64

/-- The bytes of vectors, each cut at `cap` bytes. -/
def gather (cap : Nat) (mem : Mem) (vs : List (Word × Word)) : List Byte :=
  vs.flatMap fun v => loadBytes mem v.1 (min v.2.toNat cap)

def gathered (cap : Nat) (vs : List (Word × Word)) : Nat := (vs.map fun v => min v.2.toNat cap).sum

/-- The address of byte `i` of vectors, each cut at `cap` bytes. -/
def place (cap : Nat) : List (Word × Word) → Nat → Word
  | [], _ => 0
  | (base,len) :: rest, i =>
    if i < min len.toNat cap then base + BitVec.ofNat 64 i else place cap rest (i - min len.toNat cap)

/-- A call returns a number of bytes of the buffer, and has put exactly these on the console. -/
def Reports (w : World ω) (buffer : List Byte) (result : Except Stop (Emulated ω)) : Prop :=
  ∃ r w', result = .ok (r,w') ∧ r.toNat ≤ buffer.length ∧ w'.lcl.console = w.lcl.console ++ buffer.take r.toNat

/-- The lengths add up past the end of the numbers to what is left of the vectors, and behind each cut the
    memory goes on with the bytes of the later vectors. -/
structure WrapsAround (mem : Mem) (vs : List (Word × Word)) : Prop where
  lengths : ∃ k, 0 < k ∧ gathered WHOLE vs = gathered 8192 vs + k * 2 ^ 64
  repeats : ∀ i < gathered 8192 vs, mem (place 8192 vs i) = mem (place WHOLE vs i)

@[simp] theorem loadBytes_length (mem : Mem) (addr : Word) (len : Nat) : (loadBytes mem addr len).length = len := by
  simp [loadBytes]

theorem loadBytes_getElem? (mem : Mem) (addr : Word) {len i : Nat} (inside : i < len) :
    (loadBytes mem addr len)[i]? = some (mem (addr + BitVec.ofNat 64 i)) := by
  simp [loadBytes,inside]

theorem gather_length (cap : Nat) (mem : Mem) (vs : List (Word × Word)) : (gather cap mem vs).length = gathered cap vs := by
  simp [gather,gathered,List.length_flatMap]

theorem gather_append (cap : Nat) (mem : Mem) (vs us : List (Word × Word)) :
    gather cap mem (vs ++ us) = gather cap mem vs ++ gather cap mem us := List.flatMap_append

theorem gather_getElem? (cap : Nat) (mem : Mem) (vs : List (Word × Word)) {i : Nat} (inside : i < gathered cap vs) :
    (gather cap mem vs)[i]? = some (mem (place cap vs i)) := by
  induction vs generalizing i with
  | nil => simp [gathered] at inside
  | cons v rest ih =>
    obtain ⟨base,len⟩ := v
    simp only [gather,List.flatMap_cons,place]
    by_cases here : i < min len.toNat cap
    · rw [List.getElem?_append_left (by simpa using here),if_pos here]
      exact loadBytes_getElem? mem base here
    · rw [List.getElem?_append_right (by rw [loadBytes_length]; omega),if_neg here,loadBytes_length]
      refine ih ?_
      simp only [gathered,List.map_cons,List.sum_cons] at inside ⊢
      omega

theorem vectors_take (mem : Mem) (iov : Word) (n k : Nat) (v : Word) :
    (vectors mem iov n v).take k = vectors mem iov (min n k) v := by
  induction n generalizing k v with
  | zero => simp [vectors]
  | succ n ih =>
    cases k with
    | zero => simp [vectors]
    | succ k => simp [vectors,ih,Nat.succ_min_succ]

theorem print_print (w : World ω) (first second : List Byte) : (w.print first).print second = w.print (first ++ second) := by
  simp [World.print]

/-- The loop of writev prints each vector up to 8192 bytes and adds up the lengths. -/
theorem writevLoop_eq (iov : Word) (n : Nat) (v total : Word) (w : World ω) :
    writevLoop iov n v total w = (total + BitVec.ofNat 64 (gathered WHOLE (vectors w.mem iov n v)),
      w.print (gather 8192 w.mem (vectors w.mem iov n v))) := by
  induction n generalizing v total w with
  | zero => simp [writevLoop,vectors,gathered,gather,World.print]
  | succ n ih =>
    have whole : min (loadWord w.mem (iov + v * 16 + 8)).toNat WHOLE = (loadWord w.mem (iov + v * 16 + 8)).toNat :=
      Nat.min_eq_left (Nat.le_of_lt (BitVec.isLt _))
    have mem : ∀ data, (w.print data).mem = w.mem := fun _ => rfl
    rw [writevLoop]
    simp only [ih,mem,print_print,vectors,gathered,gather,List.map_cons,List.sum_cons,List.flatMap_cons,whole]
    rw [BitVec.ofNat_add,BitVec.ofNat_toNat,BitVec.setWidth_eq,BitVec.add_assoc]

theorem reports_iff {w : World ω} {buffer data : List Byte} {r : Word} :
    Reports w buffer (.ok (r,w.print data)) ↔ r.toNat ≤ buffer.length ∧ data = buffer.take r.toNat := by
  constructor
  · rintro ⟨r',w',same,inside,console⟩
    cases same
    exact ⟨inside,List.append_cancel_left console⟩
  · rintro ⟨inside,rfl⟩
    exact ⟨r,_,rfl,inside,rfl⟩

/-- A write is reported when the buffer is not cut. -/
theorem write_reports_iff (w : World ω) (buf count : Word) :
    Reports w (loadBytes w.mem buf count.toNat) (.ok (count,w.print (loadBytes w.mem buf (min count.toNat 4096)))) ↔
      count.toNat ≤ 4096 := by
  rw [reports_iff,loadBytes_length,List.take_of_length_le (by simp)]
  constructor
  · rintro ⟨_,same⟩
    have lengths := congrArg List.length same
    simp only [loadBytes_length] at lengths
    omega
  · intro short
    rw [Nat.min_eq_left short]
    exact ⟨Nat.le_refl _,rfl⟩

theorem gathered_le (cap : Nat) (vs : List (Word × Word)) : gathered cap vs ≤ vs.length * cap := by
  induction vs with
  | nil => simp [gathered]
  | cons v rest ih =>
    simp only [gathered,List.map_cons,List.sum_cons,List.length_cons] at ih ⊢
    rw [Nat.succ_mul]
    omega

/-- What is cut off is at least a byte, unless every vector fits. -/
theorem gathered_whole (vs : List (Word × Word)) :
    gathered 8192 vs ≤ gathered WHOLE vs ∧ (gathered 8192 vs = gathered WHOLE vs ↔ ∀ v ∈ vs, v.2.toNat ≤ 8192) := by
  induction vs with
  | nil => simp [gathered]
  | cons v rest ih =>
    obtain ⟨less,same⟩ := ih
    have whole : min v.2.toNat WHOLE = v.2.toNat := Nat.min_eq_left (Nat.le_of_lt (BitVec.isLt _))
    simp only [gathered,List.map_cons,List.sum_cons,List.forall_mem_cons,whole] at less same ⊢
    refine ⟨by omega,?_⟩
    rw [← same]
    omega

theorem gather_uncut (mem : Mem) (vs : List (Word × Word)) (fits : ∀ v ∈ vs, v.2.toNat ≤ 8192) :
    gather 8192 mem vs = gather WHOLE mem vs := by
  refine List.flatMap_congr fun v member => ?_
  have whole : min v.2.toNat WHOLE = v.2.toNat := Nat.min_eq_left (Nat.le_of_lt (BitVec.isLt _))
  rw [whole,Nat.min_eq_left (fits v member)]

/-- Vectors are reported when none is cut, or when the cuts do not show. -/
theorem vectors_report_iff (w : World ω) (vs more : List (Word × Word)) (few : vs.length ≤ 64) :
    Reports w (gather WHOLE w.mem (vs ++ more)) (.ok (BitVec.ofNat 64 (gathered WHOLE vs),w.print (gather 8192 w.mem vs))) ↔
      (∀ v ∈ vs, v.2.toNat ≤ 8192) ∨ WrapsAround w.mem vs := by
  obtain ⟨less,uncut⟩ := gathered_whole vs
  have small : gathered 8192 vs ≤ 64 * 8192 := Nat.le_trans (gathered_le 8192 vs) (Nat.mul_le_mul_right 8192 few)
  have count : (BitVec.ofNat 64 (gathered WHOLE vs)).toNat = gathered WHOLE vs % 2 ^ 64 := BitVec.toNat_ofNat _ _
  have most : gathered WHOLE vs % 2 ^ 64 ≤ gathered WHOLE vs := Nat.mod_le _ _
  have front : (gather WHOLE w.mem (vs ++ more)).take (gathered WHOLE vs % 2 ^ 64) =
      (gather WHOLE w.mem vs).take (gathered WHOLE vs % 2 ^ 64) := by
    rw [gather_append,List.take_append_of_le_length (by rw [gather_length]; exact most)]
  have room : gathered WHOLE vs % 2 ^ 64 ≤ (gather WHOLE w.mem (vs ++ more)).length := by
    rw [gather_append,List.length_append,gather_length]
    omega
  rw [reports_iff,count,front,and_iff_right room,← uncut]
  constructor
  · intro same
    have lengths := congrArg List.length same
    rw [List.length_take,gather_length,gather_length,Nat.min_eq_left most] at lengths
    by_cases all : gathered 8192 vs = gathered WHOLE vs
    · exact Or.inl all
    · refine Or.inr ⟨⟨gathered WHOLE vs / 2 ^ 64,?_,?_⟩,?_⟩
      · omega
      · omega
      · intro i inside
        have byte := congrArg (fun l => l[i]?) same
        simp only [List.getElem?_take,if_pos (show i < gathered WHOLE vs % 2 ^ 64 by omega)] at byte
        rw [gather_getElem? 8192 w.mem vs inside,gather_getElem? WHOLE w.mem vs (by omega)] at byte
        exact Option.some.inj byte
  · rintro (all | ⟨⟨k,_,lengths⟩,repeats⟩)
    · have total : gathered WHOLE vs % 2 ^ 64 = gathered WHOLE vs := Nat.mod_eq_of_lt (by omega)
      rw [total,List.take_of_length_le (Nat.le_of_eq (gather_length WHOLE w.mem vs))]
      exact gather_uncut w.mem vs (uncut.mp all)
    · have total : gathered WHOLE vs % 2 ^ 64 = gathered 8192 vs := by omega
      refine List.ext_getElem? fun i => ?_
      rw [total,List.getElem?_take]
      by_cases inside : i < gathered 8192 vs
      · rw [if_pos inside,gather_getElem? 8192 w.mem vs inside,gather_getElem? WHOLE w.mem vs (by omega),repeats i inside]
      · rw [if_neg inside,List.getElem?_eq_none (by rw [gather_length]; omega)]

/-- For every descriptor of the console, every buffer and every array of vectors: write reports what it wrote
    exactly when the buffer has at most 4096 bytes; writev does exactly when none of the first 64 vectors has
    more than 8192, apart from lengths that wrap around. -/
theorem console_reported_iff (K : Kernel ω) (w : World ω) (rdi rsi rdx : Word) (console : rdi ≤ 2) :
    (Reports w (loadBytes w.mem rsi rdx.toNat) (emulate K w 1 rdi rsi rdx) ↔ rdx.toNat ≤ 4096) ∧
    (Reports w (gather WHOLE w.mem (vectors w.mem rsi rdx.toNat 0)) (emulate K w 20 rdi rsi rdx) ↔
      (∀ v ∈ (vectors w.mem rsi rdx.toNat 0).take 64, v.2.toNat ≤ 8192) ∨
        WrapsAround w.mem ((vectors w.mem rsi rdx.toNat 0).take 64)) := by
  constructor
  · have written : emulate K w 1 rdi rsi rdx = .ok (rdx,w.print (loadBytes w.mem rsi (min rdx.toNat 4096))) := if_pos console
    rw [written]
    exact write_reports_iff w rsi rdx
  · have written : emulate K w 20 rdi rsi rdx = .ok (writevLoop rsi (min rdx.toNat 64) 0 0 w) := if_pos console
    have start : ∀ n : Word, 0 + n = n := fun n => by simp
    rw [written,writevLoop_eq,← vectors_take,start]
    have whole := vectors_report_iff w ((vectors w.mem rsi rdx.toNat 0).take 64) ((vectors w.mem rsi rdx.toNat 0).drop 64)
      (by rw [List.length_take]; exact Nat.min_le_left _ _)
    rwa [List.take_append_drop] at whole

/-- "hello" and a line feed. -/
def hello : List Byte := [0x68,0x65,0x6C,0x6C,0x6F,0x0A]

/-- A memory with this text, and with an array of two vectors for its first four and its last two bytes. -/
def helloMem : Mem := fun a =>
  if a < 0x6000 then hello.getD (a - 0x5000).toNat 0
  else (leBytes 0x5000 ++ leBytes 4 ++ leBytes 0x5004 ++ leBytes 2).getD (a - 0x6000).toNat 0

/-- A guest without files, in this memory. -/
def helloWorld : World Unit := ⟨beginning.lcl,helloMem,[]⟩

theorem console_reported_hello :
    Reports helloWorld hello (emulate noService helloWorld 1 1 0x5000 6) ∧
      Reports helloWorld hello (emulate noService helloWorld 20 1 0x6000 2) := by
  have text : loadBytes helloMem 0x5000 (6 : Word).toNat = hello := by decide
  have array : vectors helloMem 0x6000 (2 : Word).toNat 0 = [(0x5000,4),(0x5004,2)] := by decide
  have pieces : gather WHOLE helloMem [(0x5000,4),(0x5004,2)] = hello := by decide
  obtain ⟨one,_⟩ := console_reported_iff noService helloWorld 1 0x5000 6 (by decide)
  obtain ⟨_,two⟩ := console_reported_iff noService helloWorld 1 0x6000 2 (by decide)
  change Reports _ (loadBytes helloMem _ _) _ ↔ _ at one
  change Reports _ (gather WHOLE helloMem (vectors helloMem _ _ 0)) _ ↔
    (∀ v ∈ (vectors helloMem _ _ 0).take 64, _) ∨ WrapsAround helloMem _ at two
  rw [text] at one
  rw [array,pieces] at two
  exact ⟨one.mpr (by decide),two.mpr (.inl (by simp))⟩

/-- A guest without files, in memory of zeros. -/
def blankWorld : World Unit := ⟨beginning.lcl,fun _ => 0,[]⟩

/-- A write of 5000 bytes puts 4096 of them on the console and returns 5000. -/
theorem long_write_cut : emulate noService blankWorld 1 1 0x5000 5000 =
      .ok (5000,blankWorld.print (loadBytes blankWorld.mem 0x5000 4096)) ∧
    ¬ Reports blankWorld (loadBytes blankWorld.mem 0x5000 (5000 : Word).toNat) (emulate noService blankWorld 1 1 0x5000 5000) := by
  refine ⟨rfl,fun reports => ?_⟩
  have fits := (write_reports_iff blankWorld 0x5000 5000).mp reports
  simp at fits

/-! ## Lines -/

/-- The bytes that COM1 receives: each is read once its status says that it is there. -/
def received : List (Word × Byte) → List Byte
  | [] => []
  | (_,lsr) :: port =>
    if lsr &&& 1 = 0 then received port
    else
      match port with
      | [] => []
      | (_,ch) :: port => ch :: received port

/-- A line after a byte that does not end it: backspace and delete take its last byte away. -/
def typed (line : List Byte) (ch : Byte) : List Byte := if ch = 0x7F ∨ ch = 0x08 then line.dropLast else line ++ [ch]

/-- The line that comes of a stream of bytes, from the line so far on: CR or LF ends it, and so does its length. -/
def lineOf (count : Nat) (line : List Byte) : List Byte → Option (List Byte)
  | [] => none
  | ch :: rest =>
    if ch = 0x0D ∨ ch = 0x0A then some (line ++ [0x0A])
    else if count ≤ (typed line ch).length then some (typed line ch)
    else lineOf count (typed line ch) rest

/-- The memory has a line at the front of a buffer of `count` bytes, and is as before outside the buffer. -/
structure Holds (before : Mem) (buf count : Word) (mem : Mem) (line : List Byte) : Prop where
  fits : line.length ≤ count.toNat
  bytes : loadBytes mem buf line.length = line
  frame : ∀ a, count.toNat ≤ (a - buf).toNat → mem a = before a

variable {before mem : Mem} {buf count : Word} {line : List Byte}

theorem loadBytes_take (mem : Mem) (addr : Word) (len k : Nat) :
    (loadBytes mem addr len).take k = loadBytes mem addr (min k len) := by
  rw [loadBytes,← List.map_take,List.take_range,loadBytes]

theorem loadBytes_succ (mem : Mem) (addr : Word) (len : Nat) :
    loadBytes mem addr (len + 1) = loadBytes mem addr len ++ [mem (addr + BitVec.ofNat 64 len)] := by
  rw [loadBytes,List.range_succ,List.map_append]
  rfl

private theorem storeByte (mem : Mem) (addr a : Word) (b : Byte) : storeBytes mem addr [b] a = if a = addr then b else mem a := by
  by_cases here : a = addr
  · simp [storeBytes,here]
  · have apart : (a - addr).toNat ≠ 0 := by
      intro zero
      have same := Overlay.start_add_distance addr a
      rw [zero] at same
      exact here (by simpa using same.symm)
    rw [storeBytes,if_neg here,List.getD_eq_getElem?_getD,List.getElem?_eq_none (by rw [List.length_singleton]; omega)]
    rfl

private theorem holds_push (holds : Holds before buf count mem line) (room : line.length < count.toNat) (ch : Byte) :
    Holds before buf count (storeBytes mem (buf + BitVec.ofNat 64 line.length) [ch]) (line ++ [ch]) := by
  have bound := count.isLt
  refine ⟨by rw [List.length_append,List.length_singleton]; exact room,?_,?_⟩
  · rw [List.length_append,List.length_singleton,loadBytes_succ,storeByte,if_pos rfl]
    refine congrArg (· ++ [ch]) ?_
    refine Eq.trans ?_ holds.bytes
    refine List.map_congr_left fun j member => ?_
    have below := List.mem_range.mp member
    rw [storeByte,if_neg]
    intro same
    have offsets : (buf + BitVec.ofNat 64 j - buf).toNat = (buf + BitVec.ofNat 64 line.length - buf).toNat := by rw [same]
    rw [Overlay.toNat_sub_start (by omega),Overlay.toNat_sub_start (by omega)] at offsets
    omega
  · intro a outside
    rw [storeByte,if_neg]
    · exact holds.frame a outside
    · rintro rfl
      rw [Overlay.toNat_sub_start (by omega)] at outside
      omega

private theorem holds_pop (holds : Holds before buf count mem line) : Holds before buf count mem line.dropLast := by
  refine ⟨?_,?_,holds.frame⟩
  · have shorter := line.length_dropLast
    have fits := holds.fits
    omega
  · have taken := congrArg (List.take (line.length - 1)) holds.bytes
    rw [loadBytes_take,Nat.min_eq_left (by omega)] at taken
    rw [List.length_dropLast,List.dropLast_eq_take,taken]

private theorem holds_typed (holds : Holds before buf count mem line) (room : line.length < count.toNat) {ch : Byte}
    (erased : ¬ (ch = 0x7F ∨ ch = 0x08)) :
    Holds before buf count (storeBytes mem (buf + BitVec.ofNat 64 line.length) [ch]) (typed line ch) := by
  rw [typed,if_neg erased]
  exact holds_push holds room ch

/-- A line is read: what the memory has when it is returned is the line that was to come, if no read failed. -/
def Edits (before : Mem) (buf count : Word) (reads : Prop) (expected : Option (List Byte)) : Except Stop (Emulated ω) → Prop
  | .ok (n,w) => ∃ line, n = BitVec.ofNat 64 line.length ∧ Holds before buf count w.mem line ∧ (reads → expected = some line)
  | .error _ => reads → expected = none

private theorem edits_step {reads reads' : Prop} {expected : Option (List Byte)} {result : Except Stop (Emulated ω)}
    (edits : Edits before buf count reads expected result) (more : reads' → reads) :
    Edits before buf count reads' expected result := by
  cases result with
  | ok out =>
    obtain ⟨line,count,holds,same⟩ := edits
    exact ⟨line,count,holds,fun succeed => same (more succeed)⟩
  | error stop => exact fun succeed => edits (more succeed)

private theorem line_inside (room : line.length < count.toNat) :
    (BitVec.ofNat 64 line.length).toNat = line.length ∧ BitVec.ofNat 64 line.length < count := by
  have bound := count.isLt
  have length : (BitVec.ofNat 64 line.length).toNat = line.length := by rw [BitVec.toNat_ofNat,Nat.mod_eq_of_lt (by omega)]
  refine ⟨length,?_⟩
  rw [BitVec.lt_def,length]
  exact room

/-- Backspace at the front of a line does nothing, elsewhere it takes a byte off the count. -/
private theorem erased_count (room : line.length < count.toNat) :
    (if 0 < BitVec.ofNat 64 line.length then BitVec.ofNat 64 line.length - 1 else BitVec.ofNat 64 line.length) =
      BitVec.ofNat 64 line.dropLast.length := by
  obtain ⟨length,_⟩ := line_inside room
  have bound := count.isLt
  have shorter : line.dropLast.length = line.length - 1 := List.length_dropLast
  have positive : 0 < BitVec.ofNat 64 line.length ↔ 0 < line.length := by
    rw [BitVec.lt_def,length]
    exact Iff.rfl
  simp only [positive,shorter]
  by_cases some : 0 < line.length
  · rw [if_pos some]
    apply BitVec.eq_of_toNat_eq
    have one : BitVec.toNat (1 : Word) ≤ (BitVec.ofNat 64 line.length).toNat := by rw [length]; exact some
    rw [BitVec.toNat_sub_of_le one,length,BitVec.toNat_ofNat,Nat.mod_eq_of_lt (by omega)]
    rfl
  · rw [if_neg some,show line.length - 1 = line.length by omega]

private theorem readStdinLine_edits (port : List (Word × Byte)) (lcl : Lcl ω) (holds : Holds before buf count mem line)
    (room : line.length < count.toNat) :
    Edits before buf count (∀ p ∈ port, p.1 = 0) (lineOf count.toNat line (received port))
      (readStdinLine buf count lcl mem (BitVec.ofNat 64 line.length) port) := by
  have bound := count.isLt
  induction port using received.induct generalizing mem line lcl with
  | case1 => exact fun _ => rfl
  | case2 err lsr port notReady ih =>
    rw [readStdinLine.eq_def,received.eq_def]
    dsimp only
    rw [if_pos notReady]
    by_cases failed : err ≠ 0
    · rw [if_pos failed]
      exact ⟨line,rfl,holds,fun succeed => absurd (succeed _ List.mem_cons_self) failed⟩
    · rw [if_neg failed,if_pos notReady]
      exact edits_step (ih lcl holds room) fun succeed p member => succeed p (List.mem_cons_of_mem _ member)
  | case3 err lsr ready =>
    rw [readStdinLine.eq_def,received.eq_def]
    dsimp only
    rw [if_neg ready]
    by_cases failed : err ≠ 0
    · rw [if_pos failed]
      exact ⟨line,rfl,holds,fun succeed => absurd (succeed _ List.mem_cons_self) failed⟩
    · rw [if_neg failed,if_neg ready]
      exact fun _ => rfl
  | case4 err lsr ready err' ch port ih =>
    obtain ⟨length,inside⟩ := line_inside room
    have later : (∀ p ∈ (err,lsr) :: (err',ch) :: port, p.1 = 0) → ∀ p ∈ port, p.1 = 0 := fun succeed p member =>
      succeed p (List.mem_cons_of_mem _ (List.mem_cons_of_mem _ member))
    have next : BitVec.ofNat 64 line.length + 1 = BitVec.ofNat 64 (line.length + 1) := (BitVec.ofNat_add _ 1).symm
    rw [readStdinLine.eq_def,received.eq_def]
    dsimp only
    rw [if_neg ready]
    by_cases failed : err ≠ 0
    · rw [if_pos failed]
      exact ⟨line,rfl,holds,fun succeed => absurd (succeed _ List.mem_cons_self) failed⟩
    · rw [if_neg failed,if_neg ready]
      by_cases failed' : err' ≠ 0
      · rw [if_pos failed']
        exact ⟨line,rfl,holds,fun succeed => absurd (succeed _ (List.mem_cons_of_mem _ List.mem_cons_self)) failed'⟩
      · rw [if_neg failed',lineOf]
        by_cases ends : ch = 0x0D ∨ ch = 0x0A
        · rw [if_pos ends,if_pos ends,if_pos inside]
          refine ⟨line ++ [0x0A],?_,holds_push holds room 0x0A,fun _ => rfl⟩
          rw [List.length_append,List.length_singleton,next]
        · rw [if_neg ends,if_neg ends]
          by_cases erases : ch = 0x7F ∨ ch = 0x08
          · have erased : typed line ch = line.dropLast := if_pos erases
            have shorter : line.dropLast.length = line.length - 1 := List.length_dropLast
            have room' : line.dropLast.length < count.toNat := by omega
            have notFull : ¬ count ≤ BitVec.ofNat 64 line.dropLast.length := BitVec.not_le.mpr (line_inside room').2
            have moved : ∀ lcl' : Lcl ω, (if 0 < BitVec.ofNat 64 line.length then (BitVec.ofNat 64 line.length - 1,lcl')
                else (BitVec.ofNat 64 line.length,lcl)) =
                (BitVec.ofNat 64 line.dropLast.length,if 0 < BitVec.ofNat 64 line.length then lcl' else lcl) := by
              intro lcl'
              rw [← erased_count room]
              split
              · rfl
              · rfl
            rw [if_pos erases,erased,if_neg (by omega),moved]
            dsimp only
            rw [if_neg notFull]
            exact edits_step (ih _ (holds_pop holds) room') later
          · have appended : (typed line ch).length = line.length + 1 := by
              rw [typed,if_neg erases,List.length_append,List.length_singleton]
            have full : count ≤ BitVec.ofNat 64 line.length + 1 ↔ count.toNat ≤ (typed line ch).length := by
              rw [next,appended,BitVec.le_def,BitVec.toNat_ofNat,Nat.mod_eq_of_lt (by omega)]
            simp only [if_neg erases,if_pos inside,full]
            by_cases last : count.toNat ≤ (typed line ch).length
            · rw [if_pos last,if_pos last]
              exact ⟨typed line ch,by rw [next,appended],holds_typed holds room erases,fun _ => rfl⟩
            · rw [if_neg last,if_neg last,next,← appended]
              exact edits_step (ih _ (holds_typed holds room erases) (by omega)) later

/-- For every stream and every count from 1 on: nothing outside the buffer is written, whatever the reads of the
    port give. When they all succeed, what is returned is the line that the received bytes make of the empty one,
    and it is returned as soon as they make one. -/
theorem line_edited (buf count : Word) (positive : 0 < count) (lcl : Lcl ω) (mem : Mem) (port : List (Word × Byte)) :
    (∀ n w, readStdinLine buf count lcl mem 0 port = .ok (n,w) → ∀ a, count.toNat ≤ (a - buf).toNat → w.mem a = mem a) ∧
    ((∀ p ∈ port, p.1 = 0) →
      (∀ n w, readStdinLine buf count lcl mem 0 port = .ok (n,w) →
        n ≤ count ∧ lineOf count.toNat [] (received port) = some (loadBytes w.mem buf n.toNat)) ∧
      ∀ line, lineOf count.toNat [] (received port) = some line →
        ∃ n w, readStdinLine buf count lcl mem 0 port = .ok (n,w)) := by
  have empty : Holds mem buf count mem [] := ⟨Nat.zero_le _,rfl,fun _ _ => rfl⟩
  have edits : Edits mem buf count (∀ p ∈ port, p.1 = 0) (lineOf count.toNat [] (received port))
      (readStdinLine buf count lcl mem 0 port) := readStdinLine_edits port lcl empty (BitVec.lt_def.mp positive)
  refine ⟨?_,fun succeed => ⟨?_,?_⟩⟩
  · intro n w ran
    rw [ran] at edits
    obtain ⟨line,_,holds,_⟩ := edits
    exact holds.frame
  · intro n w ran
    rw [ran] at edits
    obtain ⟨line,isLength,holds,expected⟩ := edits
    have fits := holds.fits
    have length : n.toNat = line.length := by
      rw [isLength,BitVec.toNat_ofNat,Nat.mod_eq_of_lt (Nat.lt_of_le_of_lt fits count.isLt)]
    refine ⟨?_,?_⟩
    · rw [BitVec.le_def,length]
      exact fits
    · rw [expected succeed,length,holds.bytes]
  · intro line expected
    cases ran : readStdinLine buf count lcl mem 0 port with
    | ok out => exact ⟨out.1,out.2,rfl⟩
    | error stop =>
      rw [ran] at edits
      have none := edits succeed
      rw [expected] at none
      cases none

/-- The reads of COM1 while bytes are typed: before each there is a while without one. -/
def typing (bytes : List Byte) : List (Word × Byte) := bytes.flatMap fun b => [(0,0),(0,1),(0,b)]

/-- `ab`, a backspace, `c` and Enter. -/
theorem line_edited_ac : ∃ w, readStdinLine 0x5000 10 beginning.lcl blankWorld.mem 0 (typing [0x61,0x62,0x08,0x63,0x0D]) =
      .ok (3,w) ∧ (3 : Word) ≤ 10 ∧
    lineOf (10 : Word).toNat [] (received (typing [0x61,0x62,0x08,0x63,0x0D])) =
      some (loadBytes w.mem 0x5000 (3 : Word).toNat) := by
  have succeed : ∀ p ∈ typing [0x61,0x62,0x08,0x63,0x0D], p.1 = 0 := by simp [typing]
  obtain ⟨w,ran⟩ : ∃ w, readStdinLine 0x5000 10 beginning.lcl blankWorld.mem 0 (typing [0x61,0x62,0x08,0x63,0x0D]) = .ok (3,w) :=
    ⟨_,rfl⟩
  exact ⟨w,ran,((line_edited 0x5000 10 (by decide) beginning.lcl blankWorld.mem _).2 succeed).1 3 w ran⟩

end Sel4Linux.Console
