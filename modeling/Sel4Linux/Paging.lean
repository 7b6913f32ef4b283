import Sel4Linux.Descriptors
import Sel4Linux.ServiceHeap

/-!
Directory listings in several calls. The bytes of one call are records laid end
to end, each with one name (`Tiles`), and the stored offset is the number of
names listed before. So the calls list the names in order, each once, and need no
more calls than there are names, as long as the heap has a buffer for every one
of them (`listing_complete_iff`).
-/
namespace Sel4Linux.Paging
open Sel4Linux.Bytes Sel4Linux.Utf8 Sel4Linux.Ipc Sel4Linux.Ext4 Sel4Linux.FdTable Sel4Linux.Service Sel4Linux.Runs
open Sel4Linux.Descriptors Sel4Linux.Metered Sel4Linux.HeapUse Sel4Linux.ServiceHeap
set_option linter.unusedSimpArgs false

/-! ## Records -/

/-- A record with one name: its length is a multiple of 8 and stands at byte 16, the name with a NUL behind it at
    byte 19. -/
structure Record (name record : List Byte) : Prop where
  reclen : (record.drop 16).take 2 = (leBytes (BitVec.ofNat 64 record.length)).take 2
  short : record.length < 2 ^ 16
  aligned : record.length % 8 = 0
  named : (record.drop 19).take (name.length + 1) = name ++ [0]

/-- The bytes are records end to end, with these names. -/
inductive Tiles : List (List Byte) → List Byte → Prop where
  | nil : Tiles [] []
  | cons {name record : List Byte} {names : List (List Byte)} {bytes : List Byte} (first : Record name record)
      (rest : Tiles names bytes) : Tiles (name :: names) (record ++ bytes)

/-- No bytes have no names. -/
theorem tiles_nil {names : List (List Byte)} (tiles : Tiles names []) : names = [] := by
  generalize empty : ([] : List Byte) = bytes at tiles
  cases tiles with
  | nil => rfl
  | @cons name record names bytes first rest =>
    have nothing : record = [] := (List.append_eq_nil_iff.mp empty.symm).1
    have named := first.named
    rw [nothing] at named
    simp at named

/-- The fields before the name, in a record for `name` at `pos`. -/
def direntHeader (pos : Nat) (name : List Byte) : List Byte :=
  leBytes 0 ++ (leBytes (BitVec.ofNat 64 (pos + direntAligned name)) ++
    ((leBytes (BitVec.ofNat 64 (direntAligned name))).take 2 ++ [0]))

/-- The bytes that a record for `name` at `pos` has. -/
def direntRecord (pos : Nat) (name : List Byte) : List Byte :=
  direntHeader pos name ++ (name ++ List.replicate (direntAligned name - 19 - name.length) 0)

theorem direntHeader_length (pos : Nat) (name : List Byte) : (direntHeader pos name).length = 19 := by simp [direntHeader]

theorem direntRecord_length (pos : Nat) (name : List Byte) : (direntRecord pos name).length = direntAligned name := by
  have room := direntAligned_le name
  simp only [direntRecord,List.length_append,direntHeader_length,List.length_replicate]
  omega

/-- The largest record is the one of a name of 255 bytes. -/
theorem direntAligned_le_536 {name : List Byte} (short : name.length ≤ 255) : direntAligned name ≤ 536 := by
  unfold direntAligned DIRENT64_SIZE
  omega

theorem direntRecord_record (pos : Nat) {name : List Byte} (short : name.length ≤ 255) :
    Record name (direntRecord pos name) := by
  have room := direntAligned_le name
  have most := direntAligned_le_536 short
  refine ⟨?_,by rw [direntRecord_length]; omega,?_,?_⟩
  · rw [direntRecord_length]
    simp [direntRecord,direntHeader,List.drop_append,List.take_append]
  · rw [direntRecord_length,direntAligned]
    omega
  · have pad : direntAligned name - 19 - name.length = (direntAligned name - 20 - name.length) + 1 := by omega
    rw [direntRecord,pad,List.replicate_succ,List.drop_left' (direntHeader_length pos name),
      List.take_append,List.take_of_length_le (Nat.le_succ name.length)]
    simp

/-! ## One call -/

/-- Bytes written over as many that are there. -/
theorem splice_over {front before old new rest : List Byte} {k : Nat} (start : before.length = k)
    (same : new.length = old.length) :
    splice (front ++ (before ++ (old ++ rest))) (front.length + k) new = front ++ (before ++ (new ++ rest)) := by
  have here : (front ++ before).length = front.length + k := by rw [List.length_append,start]
  rw [← List.append_assoc,splice,← here,List.take_left,List.append_assoc,← List.drop_drop,List.drop_left,same,List.drop_left,
    List.append_assoc]

/-- A record is written over the bytes that were there. -/
theorem writeDirent_over {front a b r t n rest name : List Byte} (ino : a.length = 8) (off : b.length = 8)
    (reclen : r.length = 2) (ftype : t.length = 1) (named : n.length = name.length) (short : name.length ≤ 255) :
    writeDirent (front ++ (a ++ (b ++ (r ++ (t ++ (n ++ rest)))))) front.length name =
      front ++ (direntHeader front.length name ++ (name ++ rest)) := by
  rw [writeDirent,direntHeader,List.take_of_length_le short]
  have two : ((leBytes (BitVec.ofNat 64 (direntAligned name))).take 2).length = 2 := by simp
  set zero := leBytes 0 with isZero
  set len := (leBytes (BitVec.ofNat 64 (direntAligned name))).take 2
  set next := leBytes (BitVec.ofNat 64 (front.length + direntAligned name)) with isNext
  have eight : zero.length = 8 := leBytes_length 0
  have eight' : next.length = 8 := leBytes_length _
  have s₁ := @splice_over front (a ++ (b ++ r)) t [0] (n ++ rest) 18 (by simp [ino,off,reclen]) ftype.symm
  have s₂ := @splice_over front (a ++ b) r len ([0] ++ (n ++ rest)) 16 (by simp [ino,off]) (by rw [two,reclen])
  have s₃ := @splice_over front [] a zero (b ++ (len ++ ([0] ++ (n ++ rest)))) 0 rfl (by rw [eight,ino])
  have s₄ := @splice_over front zero b next (len ++ ([0] ++ (n ++ rest))) 8 eight (by rw [eight',off])
  have s₅ := @splice_over front (zero ++ (next ++ (len ++ [0]))) n name rest 19 (by simp [eight,eight',two]) named.symm
  simp only [List.append_assoc,List.nil_append,Nat.add_zero] at s₁ s₂ s₃ s₄ s₅ ⊢
  rw [s₁,s₂,s₃,s₄,s₅]

/-- In a buffer of zeros the name ends with a NUL, and the bytes behind the record are still zeros. -/
theorem writeDirent_zeros {name : List Byte} (front : List Byte) {n : Nat} (short : name.length ≤ 255)
    (fits : direntAligned name ≤ n) : writeDirent (front ++ List.replicate n 0) front.length name =
      front ++ direntRecord front.length name ++ List.replicate (n - direntAligned name) 0 := by
  have room := direntAligned_le name
  have parts : n = 8 + (8 + (2 + (1 + (name.length + ((direntAligned name - 19 - name.length) + (n - direntAligned name)))))) := by
    omega
  have zeros : (List.replicate n 0 : List Byte) = List.replicate 8 0 ++ (List.replicate 8 0 ++ (List.replicate 2 0 ++
      (List.replicate 1 0 ++ (List.replicate name.length 0 ++ (List.replicate (direntAligned name - 19 - name.length) 0 ++
        List.replicate (n - direntAligned name) 0))))) := by
    simp only [← List.replicate_add]
    exact congrArg (List.replicate · 0) parts
  rw [zeros,writeDirent_over (by simp) (by simp) (by simp) (by simp) (by simp) short,direntRecord]
  simp only [List.append_assoc]

/-- The loop adds records for the next names, and stops before all are listed only where the next record does not fit. -/
theorem direntLoop_zeros {entries : List (List Byte × InodeTypes)} (short : ∀ e ∈ entries, e.1.length ≤ 255)
    (front : List Byte) (n : Nat) (offset : Word) : ∃ k ≤ entries.length, ∃ records : List Byte, records.length ≤ n ∧
      direntLoop entries (front ++ List.replicate n 0) front.length offset =
        (front ++ records ++ List.replicate (n - records.length) 0,front.length + records.length,offset + BitVec.ofNat 64 k) ∧
      Tiles ((entries.take k).map Prod.fst) records ∧ (536 ≤ n → k = 0 → entries = []) := by
  induction entries generalizing front n offset with
  | nil => exact ⟨0,Nat.le_refl 0,[],Nat.zero_le n,by simp [direntLoop],.nil,fun _ _ => rfl⟩
  | cons entry rest ih =>
    obtain ⟨name,type⟩ := entry
    have named : name.length ≤ 255 := short (name,type) List.mem_cons_self
    have most := direntAligned_le_536 named
    by_cases full : n < direntAligned name
    · refine ⟨0,Nat.zero_le _,[],Nat.zero_le n,?_,.nil,fun room => by omega⟩
      rw [direntLoop,if_pos (by simpa using full)]
      simp
    · have next := direntRecord_length front.length name
      obtain ⟨k,inside,records,fit,ran,tiles,_⟩ := ih (fun e inRest => short e (List.mem_cons_of_mem _ inRest))
        (front ++ direntRecord front.length name) (n - direntAligned name) (offset + 1)
      refine ⟨k + 1,Nat.succ_le_succ inside,direntRecord front.length name ++ records,?_,?_,?_,fun _ none => by omega⟩
      · rw [List.length_append]
        omega
      · have counted : offset + 1 + BitVec.ofNat 64 k = offset + BitVec.ofNat 64 (k + 1) := by
          rw [Nat.add_comm k 1,BitVec.ofNat_add,← BitVec.add_assoc]
          rfl
        rw [List.length_append,next] at ran
        rw [direntLoop,if_neg (by simpa using full),writeDirent_zeros front named (by omega),ran,List.length_append,next,counted,
          Nat.sub_sub,Nat.add_assoc]
        simp only [List.append_assoc]
      · exact .cons (direntRecord_record _ named) tiles

/-! ## The calls -/

variable {σ φ : Type} {X : Externs σ φ}

/-- The entries of directories as the library's objects list them, again and again. -/
structure DirView (X : Externs σ φ) where
  entries : σ → φ → Option (List (List Byte × InodeTypes))
  list : ∀ st f es, entries st f = some es → ∃ st' f',
    X.lwext4DirEntries st f = (.ok (es.map Prod.fst,es.map Prod.snd),st',f') ∧ entries st' f' = some es

/-- The entries behind a slot of the object pool. -/
def DirView.at (V : DirView X) (fs : EXT4FSImpl σ φ) (inode : Nat) : Option (List (List Byte × InodeTypes)) :=
  (fs.stores inode).bind (V.entries fs.disk)

/-- The descriptor is on the directory with these entries, and its offset behind the first `k`. -/
def Listed (V : DirView X) (fd : Word) (es : List (List Byte × InodeTypes)) (s : FsService σ φ) (k : Nat) : Prop :=
  ∃ e, s.entry fd = some e ∧ e.offset.toNat = k ∧ k ≤ es.length ∧ V.at s.fs e.inode = some es

/-- Answers to requests of `counts` bytes, one by one: each gives records with the next of the names that are left, and none
    at all only when none is left. `left'` are the names left at the end. -/
inductive Pages : List (List Byte) → List Word → List FsResponse → List (List Byte) → Prop where
  | done (left : List (List Byte)) : Pages left [] [] left
  | call {page left left' : List (List Byte)} {count next : Word} {counts : List Word} {resps : List FsResponse}
      {data : List Byte} (tiles : Tiles page data) (inside : data.length ≤ count.toNat) (last : data = [] → page ++ left = [])
      (later : Pages left counts resps left') :
      Pages (page ++ left) (count :: counts) (.OkWithData2 data next :: resps) left'

theorem getdents64_page {V : DirView X} {fs : EXT4FSImpl σ φ} {inode : Nat} {es : List (List Byte × InodeTypes)}
    (shown : V.at fs inode = some es) (short : ∀ e ∈ es, e.1.length ≤ 255) {offset : Word} {n : Nat}
    (within : offset.toNat ≤ es.length) :
    ∃ k records disk file, fs.getdents64 X inode offset (List.replicate n 0) =
        .ok (records.length,offset + BitVec.ofNat 64 k,records ++ List.replicate (n - records.length) 0,
          fs.put disk inode (some file)) ∧
      records.length ≤ n ∧ V.at (fs.put disk inode (some file)) inode = some es ∧ offset.toNat + k ≤ es.length ∧
      Tiles (((es.drop offset.toNat).take k).map Prod.fst) records ∧ (536 ≤ n → k = 0 → es.drop offset.toNat = []) := by
  obtain ⟨file,stored,listing⟩ := Option.bind_eq_some_iff.mp shown
  obtain ⟨disk,file',listed,after⟩ := V.list _ _ _ listing
  have rest : ∀ e ∈ es.drop offset.toNat, e.1.length ≤ 255 := fun e inRest => short e (List.mem_of_mem_drop inRest)
  obtain ⟨k,inside,records,fit,ran,tiles,last⟩ := direntLoop_zeros rest [] n offset
  simp only [List.nil_append,List.length_nil,Nat.zero_add] at ran
  refine ⟨k,records,disk,file',?_,fit,?_,?_,tiles,last⟩
  · rw [EXT4FSImpl.getdents64,stored]
    simp only [listed,unwrap,ok_bind,List.zip_map',Prod.mk.eta,List.map_id',ran]
  · simp only [DirView.at,Files.put_stores_self,Files.put_disk,Option.bind_some,after]
  · rw [List.length_drop] at inside
    omega

theorem DirView.at_small {V : DirView X} {fs : EXT4FSImpl σ φ} {inode : Nat} {es : List (List Byte × InodeTypes)}
    (shown : V.at fs inode = some es) : es.length < 2 ^ 63 := by
  obtain ⟨file,_,listing⟩ := Option.bind_eq_some_iff.mp shown
  obtain ⟨disk,file',listed,_⟩ := V.list _ _ _ listing
  have bound := X.dirEntries_length fs.disk file (es.map Prod.fst) (es.map Prod.snd) (by rw [listed])
  rwa [List.length_map] at bound

/-- A call gives records with the next names, and moves the offset behind them. -/
theorem handleGetdents64_lists {V : DirView X} {fd count : Word} {es : List (List Byte × InodeTypes)} {s : FsService σ φ}
    {k : Nat} (before : Listed V fd es s k) (short : ∀ e ∈ es, e.1.length ≤ 255) (fits : count.toNat ≤ HEAP_SIZE) :
    ∃ j records next t, s.handleGetdents64 X fd count = .ok (.OkWithData2 records next,t) ∧ Listed V fd es t (k + j) ∧
      records.length ≤ count.toNat ∧ Tiles (((es.drop k).take j).map Prod.fst) records ∧
      (536 ≤ count.toNat → j = 0 → es.drop k = []) := by
  obtain ⟨e,live,rfl,within,shown⟩ := before
  obtain ⟨j,records,disk,file,ran,fit,after,inside,tiles,last⟩ := getdents64_page shown short (n := count.toNat) within
  have small := DirView.at_small shown
  have room : allocate HEAP_SIZE count.toNat = .ok () := allocate_ok_iff.mpr fits
  have answered : s.handleGetdents64 X fd count = .ok (.OkWithData2 records (e.offset + BitVec.ofNat 64 j),
      { s with fs := s.fs.put disk e.inode (some file) }.setEntry fd (some { e with offset := e.offset + BitVec.ofNat 64 j })) := by
    simp only [FsService.handleGetdents64,live,room,ran,ok_bind,List.take_left]
  refine ⟨j,records,_,_,answered,⟨_,setEntry_entry (s := { s with fs := _ }) live _,?_,inside,after⟩,fit,tiles,last⟩
  simp only [BitVec.toNat_add,BitVec.toNat_ofNat]
  omega

theorem handleGetdents64_fits {V : DirView X} {fd count : Word} {es : List (List Byte × InodeTypes)} {s t : FsService σ φ}
    {k : Nat} {resp : FsResponse} (before : Listed V fd es s k) (ran : s.handleGetdents64 X fd count = .ok (resp,t)) :
    count.toNat ≤ HEAP_SIZE := by
  obtain ⟨e,live,_⟩ := before
  simp only [FsService.handleGetdents64,live,bind_ok_iff] at ran
  obtain ⟨_,room,_⟩ := ran
  exact allocate_ok_iff.mp room

/-- A call for the next records of `count` bytes. -/
def listing (X : Externs σ φ) (D : Drain σ φ) (fd : Word) (p : FsService σ φ × FsHeap) (count : Word) :
    Except Fault (FsResponse × (FsService σ φ × FsHeap)) := heapInvoke X D p (.request (.Getdents64 fd 0 count))

section
variable {V : DirView X} {D : Drain σ φ} {fd : Word} {es : List (List Byte × InodeTypes)} {p q : FsService σ φ × FsHeap} {k : Nat}
  {count : Word} {resp : FsResponse}

/-- The heap behind a call: the buffer, and then what the library takes. -/
theorem getdents64_uses (before : Listed V fd es p.1 k) (addr : Word) (h : FsHeap) :
    invokeUses X D p.1 (.request (.Getdents64 fd addr count)) h = h.takes [bytes count.toNat] >>= fun u =>
      .ok (u.beside (D.handling p.1.fs (.request (.Getdents64 fd addr count)) u.toHeap)) := by
  obtain ⟨e,live,_⟩ := before
  simp only [invokeUses,bufferAsks,live,entryUses]

theorem listing_eq_iff : listing X D fd p count = .ok (resp,q) ↔ p.1.handleGetdents64 X fd count = .ok (resp,q.1) ∧
    invokeUses X D p.1 (.request (.Getdents64 fd 0 count)) p.2 = .ok q.2 := by
  obtain ⟨s,h⟩ := p
  obtain ⟨t,k⟩ := q
  unfold listing heapInvoke
  rw [metered_ok_iff]
  rfl

/-- A call is answered exactly when its buffer fits in what is left of the heap. -/
theorem listing_ok_iff (before : Listed V fd es p.1 k) (short : ∀ e ∈ es, e.1.length ≤ 255) :
    (∃ resp q, listing X D fd p count = .ok (resp,q)) ↔ count.toNat ≤ p.2.left := by
  rw [← takes_bytes_iff]
  constructor
  · rintro ⟨resp,q,answered⟩
    have used := (listing_eq_iff.mp answered).2
    rw [getdents64_uses before] at used
    obtain ⟨u,taken,_⟩ := bind_ok_iff.mp used
    exact ⟨u,taken⟩
  · rintro ⟨u,taken⟩
    have fits : count.toNat ≤ HEAP_SIZE := Nat.le_trans (takes_bytes_iff.mp ⟨u,taken⟩) (Nat.sub_le _ _)
    obtain ⟨j,records,next,t,handled,_⟩ := handleGetdents64_lists before short fits
    exact ⟨_,(t,_),listing_eq_iff.mpr ⟨handled,by rw [getdents64_uses before,taken,ok_bind]⟩⟩

theorem listing_listed (before : Listed V fd es p.1 k) (short : ∀ e ∈ es, e.1.length ≤ 255)
    (answered : listing X D fd p count = .ok (resp,q)) : ∃ j, Listed V fd es q.1 (k + j) := by
  have handled := (listing_eq_iff.mp answered).1
  obtain ⟨j,records,next,t,handled',after,_⟩ := handleGetdents64_lists before short (handleGetdents64_fits before handled)
  cases handled.symm.trans handled'
  exact ⟨j,after⟩

theorem listing_pages {counts : List Word} {resps : List FsResponse} (before : Listed V fd es p.1 k)
    (short : ∀ e ∈ es, e.1.length ≤ 255) (roomy : ∀ c ∈ counts, 536 ≤ c.toNat)
    (ran : run (listing X D fd) p counts = .ok (resps,q)) :
    ∃ left, Pages ((es.drop k).map Prod.fst) counts resps left ∧ (es.length ≤ k + counts.length → left = []) := by
  induction counts generalizing p k resps with
  | nil =>
    cases ran
    refine ⟨_,.done _,fun all => ?_⟩
    rw [List.drop_eq_nil_of_le (show es.length ≤ k from all),List.map_nil]
  | cons count rest ih =>
    obtain ⟨resp,u,resps',first,later,rfl⟩ := run_cons_iff.mp ran
    have handled := (listing_eq_iff.mp first).1
    have fits := handleGetdents64_fits before handled
    obtain ⟨j,records,next,v,answered,after,fit,tiles,last⟩ := handleGetdents64_lists before short fits
    cases handled.symm.trans answered
    obtain ⟨left,pages,complete⟩ := ih after (fun c inRest => roomy c (List.mem_cons_of_mem _ inRest)) later
    have split : (es.drop k).map Prod.fst = ((es.drop k).take j).map Prod.fst ++ (es.drop (k + j)).map Prod.fst := by
      rw [← List.map_append,← List.drop_drop,List.take_append_drop]
    have atEnd : j = 0 → es.drop k = [] := last (roomy count List.mem_cons_self)
    refine ⟨left,split ▸ .call tiles fit (fun empty => ?_) pages,fun all => complete ?_⟩
    · rw [← split]
      rw [empty] at tiles
      have nothing := List.take_eq_nil_iff.mp (List.map_eq_nil_iff.mp (tiles_nil tiles))
      rcases nothing with none | none
      · rw [atEnd none,List.map_nil]
      · rw [none,List.map_nil]
    · by_cases none : j = 0
      · have past := List.drop_eq_nil_iff.mp (atEnd none)
        omega
      · rw [List.length_cons] at all
        omega

/-- Calls in a row are all answered exactly when each finds room for its buffer. -/
theorem listing_ran_iff (before : Listed V fd es p.1 k) (short : ∀ e ∈ es, e.1.length ≤ 255) (counts : List Word) :
    (∃ resps q, run (listing X D fd) p counts = .ok (resps,q)) ↔
      Meets (listing X D fd) (fun p c => c.toNat ≤ p.2.left) p counts := by
  refine ran_iff_meets (I := fun p => ∃ k, Listed V fd es p.1 k) (fun p c resp q inv answered => ?_) (fun p c inv => ?_) ⟨k,before⟩
  · obtain ⟨k,before⟩ := inv
    obtain ⟨j,after⟩ := listing_listed before short answered
    exact ⟨_,after⟩
  · obtain ⟨k,before⟩ := inv
    exact listing_ok_iff before short

/-- With a library that takes nothing, requests find room for their buffers when these fit all together. -/
theorem listing_none_iff {counts : List Word} (before : Listed V fd es p.1 k) (short : ∀ e ∈ es, e.1.length ≤ 255) :
    Meets (listing X .none fd) (fun p c => c.toNat ≤ p.2.left) p counts ↔ (counts.map BitVec.toNat).sum ≤ p.2.left := by
  induction counts generalizing p k with
  | nil => exact ⟨fun _ => Nat.zero_le _,fun _ => trivial⟩
  | cons count rest ih =>
    have next : ∀ {resp q}, listing X .none fd p count = .ok (resp,q) → p.2.left = count.toNat + q.2.left := by
      intro resp q answered
      have used := (listing_eq_iff.mp answered).2
      rw [getdents64_uses before] at used
      obtain ⟨u,taken,same⟩ := bind_ok_iff.mp used
      have same' : u = q.2 := Except.ok.inj same
      rw [← same']
      exact takes_bytes_left taken
    rw [List.map_cons,List.sum_cons]
    constructor
    · rintro ⟨room,later⟩
      obtain ⟨resp,q,answered⟩ := (listing_ok_iff (D := .none) before short).mpr room
      obtain ⟨j,after⟩ := listing_listed before short answered
      have rest' := (ih after).mp (later resp q answered)
      rw [next answered]
      omega
    · intro room
      refine ⟨by omega,fun resp q answered => ?_⟩
      obtain ⟨j,after⟩ := listing_listed before short answered
      rw [next answered] at room
      exact (ih after).mpr (by omega)

end

/-- A descriptor that has just been opened is at the front of its directory. -/
theorem open_listed {V : DirView X} {fd : Word} {es : List (List Byte × InodeTypes)} {s t : FsService σ φ} (c : Consistent s)
    {path : Str} {flags : BitVec 32} (opened : s.handleOpenWithPath X path flags = .ok (.Ok fd,t))
    (dir : (t.entry fd).bind (fun e => V.at t.fs e.inode) = some es) : Listed V fd es t 0 := by
  obtain ⟨e,live,start⟩ := opened_entry c opened
  obtain ⟨e',live',shown⟩ := Option.bind_eq_some_iff.mp dir
  rw [live] at live'
  cases live'
  exact ⟨e,live,by rw [start]; rfl,Nat.zero_le _,shown⟩

/-- A directory with names of 1 to 255 bytes, opened in any service that requests have led to, and requests of at least
    536 bytes each: they are all answered, with records that list the names in order, each once, until after at most as
    many requests as there are names none is left, exactly when each of them finds room for its buffer in what the
    blocks before it have left of the heap. -/
theorem listing_complete_iff (V : DirView X) (D : Drain σ φ) {disk : σ} {invs : List Invocation} {earlier : List FsResponse}
    {s t : FsService σ φ} {path : Str} {flags : BitVec 32} {fd : Word} {es : List (List Byte × InodeTypes)}
    (reached : run (FsService.invoke X) (FsService.new disk) invs = .ok (earlier,s))
    (opened : s.handleOpenWithPath X path flags = .ok (.Ok fd,t))
    (dir : (t.entry fd).bind (fun e => V.at t.fs e.inode) = some es)
    (named : ∀ e ∈ es, 1 ≤ e.1.length ∧ e.1.length ≤ 255) {counts : List Word} (roomy : ∀ c ∈ counts, 536 ≤ c.toNat)
    (h : FsHeap) :
    (∃ resps q left, run (listing X D fd) (t,h) counts = .ok (resps,q) ∧ Pages (es.map Prod.fst) counts resps left ∧
        (es.length ≤ counts.length → left = [])) ↔
      Meets (listing X D fd) (fun p c => c.toNat ≤ p.2.left) (t,h) counts := by
  have front : Listed V fd es t 0 := open_listed (run_consistent reached) opened dir
  have short : ∀ e ∈ es, e.1.length ≤ 255 := fun e inside => (named e inside).2
  constructor
  · rintro ⟨resps,q,_,ran,_⟩
    exact (listing_ran_iff (p := (t,h)) front short counts).mp ⟨resps,q,ran⟩
  · intro meets
    obtain ⟨resps,q,ran⟩ := (listing_ran_iff (p := (t,h)) front short counts).mpr meets
    obtain ⟨left,pages,complete⟩ := listing_pages (p := (t,h)) front short roomy ran
    exact ⟨resps,q,left,ran,pages,fun all => complete (by omega)⟩

/-- The directories of the file system in memory. -/
def memDirs : DirView MemFs.memFs where
  entries disk h := if (MemFs.names disk).length < 2 ^ 63 ∧ h.type = .EXT4_DE_DIR then
    some ((MemFs.names disk).map fun name => (name,.EXT4_DE_REG_FILE)) else none
  list := by
    intro disk h es listed
    refine ⟨disk,h,?_,listed⟩
    split at listed
    · next dir =>
      cases listed
      simp only [MemFs.memFs,if_pos dir,List.map_map,Function.comp_def,List.map_id']
    · cases listed

/-- A directory beside a file. -/
def dirDisk : List MemFs.Node :=
  [{ path := [0x2F#8,0x64#8], type := .EXT4_DE_DIR, bytes := [] },
    { path := [0x2F#8,0x61#8], type := .EXT4_DE_REG_FILE, bytes := [] }]

/-- The directory, opened. -/
theorem dirDisk_opened : ∃ t, (FsService.new dirDisk).handleOpenWithPath MemFs.memFs (ascii ['/','d']) 0 = .ok (.Ok 3,t) ∧
    (t.entry 3).bind (fun e => memDirs.at t.fs e.inode) = some ((MemFs.names dirDisk).map fun name => (name,.EXT4_DE_REG_FILE)) :=
  ⟨_,rfl,rfl⟩

theorem dirDisk_named : ∀ e ∈ (MemFs.names dirDisk).map fun name => (name,InodeTypes.EXT4_DE_REG_FILE),
    1 ≤ e.1.length ∧ e.1.length ≤ 255 := by
  simp [MemFs.names,dirDisk]

/-- A directory listed in two requests of 600 KiB: the second buffer is more than any heap has left. -/
theorem listings_exhaust : ∃ t, (FsService.new dirDisk).handleOpenWithPath MemFs.memFs (ascii ['/','d']) 0 = .ok (.Ok 3,t) ∧
    (t.entry 3).bind (fun e => memDirs.at t.fs e.inode) = some ((MemFs.names dirDisk).map fun name => (name,.EXT4_DE_REG_FILE)) ∧
    ∀ h resps q, run (listing MemFs.memFs .none 3) (t,h) [0x96000,0x96000] ≠ .ok (resps,q) := by
  obtain ⟨t,opened,dir⟩ := dirDisk_opened
  refine ⟨t,opened,dir,fun h resps q ran => ?_⟩
  have front := open_listed (new_consistent dirDisk) opened dir
  have short : ∀ e ∈ (MemFs.names dirDisk).map fun name => (name,InodeTypes.EXT4_DE_REG_FILE), e.1.length ≤ 255 :=
    fun e inside => (dirDisk_named e inside).2
  have room := (listing_none_iff (p := (t,h)) front short).mp ((listing_ran_iff (p := (t,h)) front short _).mp ⟨resps,q,ran⟩)
  have most : h.left ≤ HEAP_SIZE := Nat.sub_le _ _
  simp [HEAP_SIZE] at room most
  omega

/-- Four names in three calls, the first of which has room for one. -/
theorem listing_complete_four : ∃ t, (FsService.new dirDisk).handleOpenWithPath MemFs.memFs (ascii ['/','d']) 0 = .ok (.Ok 3,t) ∧
    ∃ resps q left, run (listing MemFs.memFs .none 3) (t,.unused _ _) [536,900,900,900] = .ok (resps,q) ∧
      Pages (MemFs.names dirDisk) [536,900,900,900] resps left ∧ left = [] := by
  obtain ⟨t,opened,dir⟩ := dirDisk_opened
  have roomy : ∀ c ∈ ([536,900,900,900] : List Word), 536 ≤ c.toNat := by simp
  have reached : run (FsService.invoke MemFs.memFs) (FsService.new dirDisk) [] = .ok ([],FsService.new dirDisk) := rfl
  have front := open_listed (run_consistent reached) opened dir
  have meets : Meets (listing MemFs.memFs .none 3) (fun p c => c.toNat ≤ p.2.left) (t,.unused _ _) [536,900,900,900] :=
    (listing_none_iff front fun e inside => (dirDisk_named e inside).2).mpr (by simp [TableHeap.unused,Heap.left,HEAP_SIZE])
  obtain ⟨resps,q,left,ran,pages,all⟩ :=
    (listing_complete_iff memDirs .none reached opened dir dirDisk_named roomy (.unused _ _)).mpr meets
  exact ⟨t,opened,resps,q,left,ran,pages,all (by decide)⟩

end Sel4Linux.Paging
