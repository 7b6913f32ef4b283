import Sel4Linux.KernelWrapper

/-!
The tool that makes a Linux boot image of an ELF64 file (`tools/mk-bzimage.py`).
The setup part is taken from another kernel, with five fields written anew, and
the load segments are put behind it. A boot loader that goes by the header finds
them at 0x100000, all at the same distance from their physical addresses, and
the entry that it jumps to is moved by that distance too (`image_boots`).
-/
namespace Sel4Linux.BzImage
open Sel4Linux.Bytes Sel4Linux.Runs Sel4Linux.Slices Sel4Linux.FlatImage
open Sel4Linux.KernelWrapper hiding Failure
open Sel4Linux.BootNotes (Failure number packInto setNumber packInto_ok_iff length_setNumber getElem?_setNumber number_setNumber
  number_congr)
set_option linter.unusedSimpArgs false

/-! ## The tool -/

/-- A number that may be negative, which `struct` refuses. -/
def packInt (setup : List Byte) (pos : Nat) (v : Int) : Except Failure (List Byte) :=
  if v < 0 then .error .struct else packInto 4 setup pos v.toNat

/-- `code32_entry`. -/
def code32Entry (entry base : Nat) : Int := 0x100000 + ((entry : Int) - base)

/-- The setup part of the reference kernel with its fields for a kernel of `total` bytes. -/
def patchSetup (ref : List Byte) (total entry base : Nat) : Except Failure (List Byte) :=
  match ref[0x1F1]? with
  | none => .error .index
  | some setupSects => do
    let setup ← packInto 4 (ref.take ((setupSects.toNat + 1) * 512)) 0x1F4 ((total + 15) / 16)
    let setup ← packInt setup 0x214 (code32Entry entry base)
    let setup ← packInto 4 setup 0x228 0
    let setup ← packInto 4 setup 0x218 0
    packInto 4 setup 0x21C 0

/-- The image of the segments; without segments, or without a reference kernel, the tool exits. -/
def assemble (segs : List LoadSegment) (entry : Nat) (data : List Byte) (reference : Option (List Byte)) :
    Except Failure (List Byte) :=
  match flatten segs data,reference with
  | some kernelBin,some ref => do
    let setup ← patchSetup ref kernelBin.length entry (minPaddr segs)
    .ok (setup ++ kernelBin)
  | _,_ => .error .exit

/-- `build`, with the first kernel found in `/boot`, if there is one. -/
def build (data : List Byte) (reference : Option (List Byte)) : Except Failure (List Byte) :=
  if data.take 4 ≠ [0x7F,0x45,0x4C,0x46] then .error .exit
  else match data[4]? with
    | none => .error .index
    | some elfClass =>
      if elfClass ≠ 2 then .error .exit
      else do
        let (segs,entry,_) ← segmentsOf true data
        assemble segs entry data reference

/-! ## Fields -/

/-- Fields of four bytes written one after the other. -/
def patched (setup : List Byte) (fields : List (Nat × Nat)) : List Byte := fields.foldl (fun s f => setNumber 4 s f.1 f.2) setup

variable {setup : List Byte} {fields : List (Nat × Nat)}

theorem patched_length (inside : ∀ f ∈ fields, f.1 + 4 ≤ setup.length) : (patched setup fields).length = setup.length := by
  induction fields generalizing setup with
  | nil => rfl
  | cons f rest ih =>
    have first : (setNumber 4 setup f.1 f.2).length = setup.length := length_setNumber (by decide) (inside f List.mem_cons_self)
    have later := @ih (setNumber 4 setup f.1 f.2) fun g member => by rw [first]; exact inside g (List.mem_cons_of_mem f member)
    exact later.trans first

theorem patched_outside (inside : ∀ f ∈ fields, f.1 + 4 ≤ setup.length) {i : Nat}
    (apart : ∀ f ∈ fields, ¬ (f.1 ≤ i ∧ i < f.1 + 4)) : (patched setup fields)[i]? = setup[i]? := by
  induction fields generalizing setup with
  | nil => rfl
  | cons f rest ih =>
    have here := inside f List.mem_cons_self
    have first : (setNumber 4 setup f.1 f.2).length = setup.length := length_setNumber (by decide) here
    have later := @ih (setNumber 4 setup f.1 f.2) (fun g member => by rw [first]; exact inside g (List.mem_cons_of_mem f member))
      fun g member => apart g (List.mem_cons_of_mem f member)
    refine later.trans ?_
    rw [getElem?_setNumber (by decide) here,if_neg (apart f List.mem_cons_self)]

/-- Fields that do not meet are all read back. -/
theorem patched_field (inside : ∀ f ∈ fields, f.1 + 4 ≤ setup.length)
    (apart : fields.Pairwise fun f g => f.1 + 4 ≤ g.1 ∨ g.1 + 4 ≤ f.1) {f : Nat × Nat} (member : f ∈ fields)
    (small : f.2 < 256 ^ 4) : number (patched setup fields) f.1 4 = f.2 := by
  induction fields generalizing setup with
  | nil => cases member
  | cons g rest ih =>
    obtain ⟨here,later⟩ := List.pairwise_cons.mp apart
    have place := inside g List.mem_cons_self
    have first : (setNumber 4 setup g.1 g.2).length = setup.length := length_setNumber (by decide) place
    have inRest : ∀ h ∈ rest, h.1 + 4 ≤ (setNumber 4 setup g.1 g.2).length := fun h inside' => by
      rw [first]
      exact inside h (List.mem_cons_of_mem g inside')
    rcases List.mem_cons.mp member with rfl | behind
    · have kept : number (patched (setNumber 4 setup f.1 f.2) rest) f.1 4 = number (setNumber 4 setup f.1 f.2) f.1 4 := by
        refine number_congr fun k low => patched_outside inRest fun h inside' near => ?_
        have both := here h inside'
        omega
      exact kept.trans (number_setNumber (by decide) place small)
    · exact ih inRest later behind

/-! ## The setup part -/

/-- The fields that the tool writes. -/
def setupFields (total code32 : Nat) : List (Nat × Nat) :=
  [(0x1F4,(total + 15) / 16),(0x214,code32),(0x228,0),(0x218,0),(0x21C,0)]

/-- The tool can write its fields. -/
structure Bootable (ref : List Byte) (total entry base : Nat) (setupSects : Byte) : Prop where
  sects : ref[0x1F1]? = some setupSects
  whole : 0x22C ≤ (ref.take ((setupSects.toNat + 1) * 512)).length
  syssize : (total + 15) / 16 < 256 ^ 4
  entry : 0 ≤ code32Entry entry base ∧ code32Entry entry base < 256 ^ 4

theorem packInt_ok_iff {pos : Nat} {v : Int} {after : List Byte} : packInt setup pos v = .ok after ↔
    0 ≤ v ∧ v < 256 ^ 4 ∧ pos + 4 ≤ setup.length ∧ after = setNumber 4 setup pos v.toNat := by
  unfold packInt
  by_cases low : v < 0
  · rw [if_pos low]
    exact iff_of_false (by simp) (by omega)
  · rw [if_neg low,packInto_ok_iff]
    refine ⟨fun ⟨small,rest⟩ => ⟨by omega,by omega,rest⟩,fun ⟨_,small,rest⟩ => ⟨by omega,rest⟩⟩

theorem fields_apart (total code32 : Nat) : (setupFields total code32).Pairwise fun f g => f.1 + 4 ≤ g.1 ∨ g.1 + 4 ≤ f.1 := by
  simp [setupFields]

theorem fields_inside {total code32 : Nat} (whole : 0x22C ≤ setup.length) :
    ∀ f ∈ setupFields total code32, f.1 + 4 ≤ setup.length := by
  simp only [setupFields,List.forall_mem_cons]
  refine ⟨?_,?_,?_,?_,?_,by simp⟩ <;> omega

theorem patchSetup_ok_iff {ref after : List Byte} {total entry base : Nat} : patchSetup ref total entry base = .ok after ↔
    ∃ setupSects, Bootable ref total entry base setupSects ∧
      after = patched (ref.take ((setupSects.toNat + 1) * 512)) (setupFields total (code32Entry entry base).toNat) := by
  unfold patchSetup
  cases isSects : ref[0x1F1]? with
  | none =>
    refine iff_of_false (by simp) ?_
    rintro ⟨setupSects,⟨sects,_,_,_⟩,_⟩
    rw [isSects] at sects
    cases sects
  | some setupSects =>
    simp only [bind_ok_iff,packInto_ok_iff,packInt_ok_iff]
    generalize isPart : ref.take ((setupSects.toNat + 1) * 512) = part
    constructor
    · rintro ⟨_,⟨size,inside,isFirst⟩,_,⟨low,high,inside₁,isSecond⟩,_,⟨_,inside₂,isThird⟩,_,⟨_,_,isFourth⟩,_,_,isLast⟩
      have first : (setNumber 4 part 0x1F4 ((total + 15) / 16)).length = part.length := length_setNumber (by decide) inside
      rw [← isFirst] at first
      have second := @length_setNumber 4 _ 0x214 (code32Entry entry base).toNat (by decide) inside₁
      rw [← isSecond] at second
      refine ⟨setupSects,⟨isSects,?_,size,low,high⟩,?_⟩
      · rw [isPart]
        omega
      · rw [isPart,isLast,isFourth,isThird,isSecond,isFirst]
        rfl
    · rintro ⟨sects',⟨sects,whole,size,low,high⟩,isLast⟩
      rw [isSects] at sects
      cases sects
      rw [isPart] at whole isLast
      have first : (setNumber 4 part 0x1F4 ((total + 15) / 16)).length = part.length := length_setNumber (by decide) (by omega)
      have second :=
        @length_setNumber 4 (setNumber 4 part 0x1F4 ((total + 15) / 16)) 0x214 (code32Entry entry base).toNat (by decide) (by omega)
      have third :=
        @length_setNumber 4 (setNumber 4 (setNumber 4 part 0x1F4 ((total + 15) / 16)) 0x214 (code32Entry entry base).toNat)
        0x228 0 (by decide) (by omega)
      have fourth := @length_setNumber 4
        (setNumber 4 (setNumber 4 (setNumber 4 part 0x1F4 ((total + 15) / 16)) 0x214 (code32Entry entry base).toNat) 0x228 0)
        0x218 0 (by decide) (by omega)
      exact ⟨_,⟨size,by omega,rfl⟩,_,⟨low,high,by omega,rfl⟩,_,⟨by decide,by omega,rfl⟩,_,⟨by decide,by omega,rfl⟩,by decide,
        by omega,isLast⟩

/-! ## Booting -/

variable {segs : List LoadSegment} {data ref out : List Byte} {entry : Nat}

/-- The memory that a boot loader makes of an image: what is behind its setup part, from 0x100000 on. -/
def booted (image : List Byte) (a : Nat) : Option Byte := image[0x1F1]?.bind fun setupSects =>
  if 0x100000 ≤ a then image[(setupSects.toNat + 1) * 512 + (a - 0x100000)]? else none

theorem build_eq (parsed : parseElfSegments data = .ok (segs,entry,true)) (reference : Option (List Byte)) :
    build data reference = assemble segs entry data reference := by
  rw [parseElfSegments] at parsed
  split at parsed
  · cases parsed
  · next elf =>
    rw [build,if_neg elf]
    cases isClass : data[4]? with
    | none =>
      rw [isClass] at parsed
      cases parsed
    | some elfClass =>
      rw [isClass] at parsed
      have read := raising_ok_iff.mp parsed
      have two : elfClass = 2 := by
        unfold segmentsOf at read
        simp only [bind_ok_iff,Except.ok.injEq,Prod.mk.injEq] at read
        obtain ⟨_,_,_,_,_,_,_,_,_,_,_,_,same⟩ := read
        exact beq_iff_eq.mp same
      subst two
      change (if (2 : Byte) ≠ 2 then _ else _) = _
      rw [if_neg (by simp)]
      have segments : segmentsOf true data = .ok (segs,entry,true) := read
      rw [segments]
      rfl

theorem flatten_whole (loadable : Loadable segs data) (some' : segs ≠ []) : ∃ kernelBin, flatten segs data = some kernelBin ∧
    kernelBin.length = maxPaddr segs - minPaddr segs ∧ FlatOf segs data kernelBin := by
  obtain ⟨kernelBin,isFlat,length,shows⟩ := flatten_spec loadable some' (.refl segs)
  exact ⟨kernelBin,isFlat,length,flatOf_of_shows loadable shows⟩

theorem build_ok_iff (parsed : parseElfSegments data = .ok (segs,entry,true)) :
    build data (some ref) = .ok out ↔ ∃ kernelBin setupSects, flatten segs data = some kernelBin ∧
      Bootable ref kernelBin.length entry (minPaddr segs) setupSects ∧
      out = patched (ref.take ((setupSects.toNat + 1) * 512))
        (setupFields kernelBin.length (code32Entry entry (minPaddr segs)).toNat) ++ kernelBin := by
  rw [build_eq parsed]
  unfold assemble
  cases isFlat : flatten segs data with
  | none => simp
  | some kernelBin =>
    simp only [bind_ok_iff,patchSetup_ok_iff,Except.ok.injEq]
    constructor
    · rintro ⟨_,⟨setupSects,bootable,isSetup⟩,isOut⟩
      rw [isSetup] at isOut
      exact ⟨kernelBin,setupSects,rfl,bootable,isOut.symm⟩
    · rintro ⟨_,setupSects,same,bootable,isOut⟩
      cases same
      exact ⟨_,⟨setupSects,bootable,rfl⟩,isOut.symm⟩

theorem flatten_isNone_iff : flatten segs data = none ↔ segs = [] := by
  unfold flatten
  cases segs with
  | nil => simp
  | cons s rest => simp

/--
For an ELF64 file with segments that do not meet, the image is made exactly when
there are segments and the fields can be written. It is the reference's setup
part, changed in the five fields only, and the segments: the loader finds them
from 0x100000 on, where the entry is as far from their first byte as in the file.
-/
theorem image_boots (data ref : List Byte) (segs : List LoadSegment) (entry : Nat)
    (parsed : parseElfSegments data = .ok (segs,entry,true)) (loadable : Loadable segs data) :
    ((∃ out, build data (some ref) = .ok out) ↔ segs ≠ [] ∧ ∃ setupSects,
      Bootable ref (maxPaddr segs - minPaddr segs) entry (minPaddr segs) setupSects) ∧
    ∀ out, build data (some ref) = .ok out → ∃ setupSects : Byte, ref[0x1F1]? = some setupSects ∧
      out.length = min ((setupSects.toNat + 1) * 512) ref.length + (maxPaddr segs - minPaddr segs) ∧
      (∀ i < min ((setupSects.toNat + 1) * 512) ref.length,
        ¬ (0x1F4 ≤ i ∧ i < 0x1F8) → ¬ (0x214 ≤ i ∧ i < 0x220) → ¬ (0x228 ≤ i ∧ i < 0x22C) → out[i]? = ref[i]?) ∧
      number out 0x1F4 4 = (maxPaddr segs - minPaddr segs + 15) / 16 ∧
      (number out 0x214 4 : Int) = 0x100000 + ((entry : Int) - minPaddr segs) ∧
      number out 0x218 4 = 0 ∧ number out 0x21C 4 = 0 ∧ number out 0x228 4 = 0 ∧
      ((setupSects.toNat + 1) * 512 ≤ ref.length → ∀ a, booted out a =
        if 0x100000 ≤ a ∧ a < 0x100000 + (maxPaddr segs - minPaddr segs)
          then some ((loaded segs data (minPaddr segs + (a - 0x100000))).getD 0) else none) := by
  constructor
  · constructor
    · rintro ⟨out,ran⟩
      obtain ⟨kernelBin,setupSects,isFlat,bootable,_⟩ := (build_ok_iff parsed).mp ran
      have some' : segs ≠ [] := fun none' => by
        rw [flatten_isNone_iff.mpr none'] at isFlat
        cases isFlat
      obtain ⟨_,isFlat',length,_⟩ := flatten_whole loadable some'
      rw [isFlat] at isFlat'
      cases isFlat'
      rw [length] at bootable
      exact ⟨some',setupSects,bootable⟩
    · rintro ⟨some',setupSects,bootable⟩
      obtain ⟨kernelBin,isFlat,length,_⟩ := flatten_whole loadable some'
      rw [← length] at bootable
      exact ⟨_,(build_ok_iff parsed).mpr ⟨kernelBin,setupSects,isFlat,bootable,rfl⟩⟩
  · intro out ran
    obtain ⟨kernelBin,setupSects,isFlat,bootable,isOut⟩ := (build_ok_iff parsed).mp ran
    replace isOut := isOut.symm
    subst isOut
    have some' : segs ≠ [] := fun none' => by
      rw [flatten_isNone_iff.mpr none'] at isFlat
      cases isFlat
    obtain ⟨_,isFlat',length,flat⟩ := flatten_whole loadable some'
    rw [isFlat] at isFlat'
    cases isFlat'
    obtain ⟨sects,whole,size,low,high⟩ := bootable
    generalize isPart : ref.take ((setupSects.toNat + 1) * 512) = part at whole
    have partLength : part.length = min ((setupSects.toNat + 1) * 512) ref.length := by rw [← isPart,List.length_take]
    generalize isCode : (code32Entry entry (minPaddr segs)).toNat = code32
    have inside := @fields_inside part kernelBin.length code32 whole
    have setupLength := patched_length inside
    have setupByte {i : Nat} (before : i < part.length) :
        (patched part (setupFields kernelBin.length code32) ++ kernelBin)[i]? =
          (patched part (setupFields kernelBin.length code32))[i]? :=
      List.getElem?_append_left (by rw [setupLength]; exact before)
    have field {pos v : Nat} (member : (pos,v) ∈ setupFields kernelBin.length code32) (small : v < 256 ^ 4) :
        number (patched part (setupFields kernelBin.length code32) ++ kernelBin) pos 4 = v := by
      refine Eq.trans (number_congr fun k low => setupByte ?_) (patched_field inside (fields_apart _ _) member small)
      have there := inside _ member
      dsimp only at there
      omega
    have code : (code32 : Int) = 0x100000 + ((entry : Int) - minPaddr segs) := by
      rw [← isCode,code32Entry] at *
      omega
    have kept {i : Nat} (before : i < part.length) (first : ¬ (0x1F4 ≤ i ∧ i < 0x1F8)) (second : ¬ (0x214 ≤ i ∧ i < 0x220))
        (third : ¬ (0x228 ≤ i ∧ i < 0x22C)) : (patched part (setupFields kernelBin.length code32) ++ kernelBin)[i]? = ref[i]? := by
      rw [setupByte before,patched_outside inside,← isPart,List.getElem?_take_of_lt (by omega)]
      simp only [setupFields,List.forall_mem_cons]
      refine ⟨?_,?_,?_,?_,?_,by simp⟩ <;> omega
    refine ⟨setupSects,sects,?_,?_,?_,?_,?_,?_,?_,?_⟩
    · rw [List.length_append,setupLength,partLength,length]
    · intro i before
      rw [← partLength] at before
      exact kept before
    · rw [← length]
      exact field (by simp [setupFields]) size
    · rw [field (v := code32) (by simp [setupFields]) (by omega)]
      exact code
    · exact field (by simp [setupFields]) (by decide)
    · exact field (by simp [setupFields]) (by decide)
    · exact field (by simp [setupFields]) (by decide)
    · intro all a
      have sects' : (patched part (setupFields kernelBin.length code32) ++ kernelBin)[0x1F1]? = some setupSects :=
        (kept (by omega) (by omega) (by omega) (by omega)).trans sects
      have starts : (patched part (setupFields kernelBin.length code32)).length = (setupSects.toNat + 1) * 512 := by
        rw [setupLength,partLength]
        omega
      rw [booted,sects',Option.bind_some]
      by_cases above : 0x100000 ≤ a
      · rw [if_pos above,List.getElem?_append_right (by omega),starts,Nat.add_sub_cancel_left]
        by_cases below : a < 0x100000 + (maxPaddr segs - minPaddr segs)
        · rw [if_pos ⟨above,below⟩]
          have byte := @flat_loaded segs data loadable kernelBin flat (minPaddr segs + (a - 0x100000)) (by omega) (by omega)
          rwa [Nat.add_sub_cancel_left] at byte
        · rw [if_neg fun both => below both.2]
          exact List.getElem?_eq_none (by omega)
      · rw [if_neg above,if_neg fun both => above both.1]

/-- A setup part of two sectors. -/
def reference : List Byte := List.replicate 0x1F1 0 ++ 1 :: List.replicate 526 0xAA

theorem image_boots_prepared : parseElfSegments BootNotes.prepared = .ok ([⟨176,0x100000,4,4⟩],0,true) ∧
    Loadable [⟨176,0x100000,4,4⟩] BootNotes.prepared ∧ ∃ out, build BootNotes.prepared (some reference) = .ok out ∧
      out.length = 1028 ∧
      number out 0x1F4 4 = 1 ∧ out[0x200]? = some 0xAA ∧ booted out 0x100001 = some 0xB0 ∧ booted out 0x100004 = none := by
  have parsed : parseElfSegments BootNotes.prepared = .ok ([⟨176,0x100000,4,4⟩],0,true) := by decide +kernel
  have loadable : Loadable [⟨176,0x100000,4,4⟩] BootNotes.prepared := by
    refine ⟨by simp,?_,List.pairwise_singleton _ _⟩
    intro s member
    rw [List.mem_singleton.mp member]
    decide +kernel
  have least : minPaddr [⟨176,0x100000,4,4⟩] = 0x100000 := rfl
  have most : maxPaddr [⟨176,0x100000,4,4⟩] = 0x100004 := rfl
  have sects : reference[0x1F1]? = some 1 := by decide +kernel
  have length : reference.length = 1024 := by simp only [reference,List.length_append,List.length_cons,List.length_replicate]
  obtain ⟨made,all⟩ := image_boots BootNotes.prepared reference _ 0 parsed loadable
  rw [least,most] at made all
  have bootable : Bootable reference 4 0 0x100000 1 := by
    refine ⟨sects,?_,by decide,by decide⟩
    rw [List.length_take,length]
    decide
  obtain ⟨out,ran⟩ := made.mpr ⟨by simp,1,bootable⟩
  obtain ⟨setupSects,sects',total,kept,size,_,_,_,_,memory⟩ := all out ran
  rw [sects] at sects'
  cases sects'
  have whole : ((1 : Byte).toNat + 1) * 512 = 1024 := rfl
  rw [length,whole] at total kept memory
  have there := memory (Nat.le_refl 1024)
  have byte := kept 0x200 (by rw [Nat.min_self]; omega) (by omega) (by omega) (by omega)
  refine ⟨parsed,loadable,out,ran,total,size,byte.trans ?_,(there 0x100001).trans ?_,(there 0x100004).trans ?_⟩ <;> decide +kernel

end Sel4Linux.BzImage
