import Xv6.User.Files

namespace Xv6.User.Files
open Slots Runs
open Xv6.Fs.Core (parts)

-- cp and mv: one loop that copies, and for mv the unlink behind it.

def BUF_SIZE : Nat := 256

def basename (path : List UInt8) : List UInt8 := (path.reverse.takeWhile (· ≠ 47)).reverse

-- com: a destination that ends in '/' gets the name of the source.
def completed (src dst : List UInt8) : List UInt8 := if dst.getLast? = some 47 then dst ++ basename src else dst

-- The loop, with the offsets of the two open files. The result of write is not looked at.
def copy (i j : Nat) : Nat → Disk → Nat → Nat → List (List UInt8) → Option Disk
  | 0,_,_,_,_ => none
  | fuel+1,fs,off,dest,typed =>
    let (buf,typed) := read fs i off BUF_SIZE typed
    if buf = [] then some fs
    else
      let (fs,written) := write fs j dest buf
      copy i j fuel fs (off+buf.length) (if written then dest+buf.length else dest) typed

inductive Outcome where
  | exits (fs : Disk)
  | overflow
  | panic
  | copied (fs : Disk)
  | moved (fs : Disk)

def cp (fuel : Nat) (fs : Disk) (cwd : Nat) (typed : List (List UInt8)) (src dst : List UInt8) : Option Outcome :=
  match namei fs cwd src with
  | none => some (.exits fs)
  | some i =>
    if (fs.table i).isSome then some (.exits fs)
    else if 128 ≤ (completed src dst).length then some .overflow
    else
      match create fs cwd (completed src dst) with
      | .failed => some (.exits fs)
      | .panic => some .panic
      | .done (j,fs) => (copy i j fuel fs 0 0 typed).map .copied

-- main of mv: the same, and then the source goes.
def mv (fuel : Nat) (fs : Disk) (cwd : Nat) (typed : List (List UInt8)) (src dst : List UInt8) : Option Outcome :=
  match cp fuel fs cwd typed src dst with
  | some (.copied fs) =>
    match unlink fs cwd src with
    | .done fs => some (.moved fs)
    | .failed => some (.copied fs)
    | .panic => some .panic
  | outcome => outcome

section
variable {fs last : Disk} {src old : List UInt8}

-- off bytes are copied: the destination has them in front of what was there.
def Disk.partly (fs : Disk) (j : Nat) (src old : List UInt8) (off : Nat) : Disk := fs.setBytes j (src.take off ++ old.drop off)

theorem splice (off n : Nat) (inside : off+n ≤ src.length) :
    (src.take off ++ old.drop off).take off ++ (src.drop off).take n ++ (src.take off ++ old.drop off).drop (off+n) =
      src.take (off+n) ++ old.drop (off+n) := by
  have length : (src.take off).length = off := by
    rw [List.length_take]
    omega
  have first : (src.take off ++ old.drop off).take off = src.take off := by
    rw [List.take_append,length,Nat.sub_self,List.take_zero,List.append_nil,List.take_of_length_le (by omega)]
  have last : (src.take off ++ old.drop off).drop (off+n) = old.drop (off+n) := by
    rw [List.drop_append,length,Nat.add_sub_cancel_left,List.drop_drop,List.drop_eq_nil_of_le (by omega),List.nil_append]
  rw [first,last,List.take_add]

theorem partly_source (here : fs.bytes i = some src) (there : fs.bytes j = some old) (off : Nat) (typed : List (List UInt8)) :
    read (fs.partly j src old off) i off BUF_SIZE typed = ((src.drop off).take BUF_SIZE,typed) := by
  obtain ⟨n,known⟩ := bytes_inode there
  obtain ⟨m,mine⟩ := bytes_inode here
  rw [Disk.partly,setBytes_eq known,read]
  by_cases same : i = j
  · subst same
    rw [known] at mine
    cases mine
    rw [inode_put,List.take_append_drop]
  · rw [inode_put_ne same,mine]

theorem partly_write (there : fs.bytes j = some old) (some : n ≤ (src.drop off).length) (inside : off ≤ src.length) (small : src.length ≤ MAXFILE) :
    write (fs.partly j src old off) j off ((src.drop off).take n) = (fs.partly j src old (off+n),true) := by
  obtain ⟨m,known⟩ := bytes_inode there
  rw [List.length_drop] at some
  have length : ((src.drop off).take n).length = n := by
    rw [List.length_take,List.length_drop]
    omega
  have bytes : (fs.partly j src old off).bytes j = Option.some (src.take off ++ old.drop off) := by
    rw [Disk.partly,setBytes_eq known,Disk.bytes,inode_put]
    rfl
  have fits : off ≤ (src.take off ++ old.drop off).length ∧ off+n ≤ MAXFILE := by
    rw [List.length_append,List.length_take]
    omega
  have after : (fs.partly j src old off).inode j = Option.some ⟨m,.file (src.take off ++ old.drop off)⟩ := by
    rw [Disk.partly,setBytes_eq known,inode_put]
  rw [write,bytes]
  dsimp only
  rw [length,if_pos fits,splice off n (by omega),setBytes_eq after,Disk.partly,Disk.partly,setBytes_eq known,setBytes_eq known,put_put]

section
variable (here : fs.bytes i = some src) (there : fs.bytes j = some old) (small : src.length ≤ MAXFILE) (typed : List (List UInt8))
include here there small typed

theorem copy_from :
    ∀ fuel off, off ≤ src.length → src.length-off < fuel →
      copy i j fuel (fs.partly j src old off) off off typed = some (fs.setBytes j (src ++ old.drop src.length)) := by
  intro fuel
  induction fuel with
  | zero =>
    intro off _ none
    omega
  | succ fuel ih =>
    intro off inside enough
    rw [copy,partly_source here there]
    dsimp only
    by_cases rest : off = src.length
    · rw [if_pos (by rw [rest,List.drop_length,List.take_nil]),Disk.partly,rest,List.take_length]
    have more : ((src.drop off).take BUF_SIZE).length = min BUF_SIZE (src.length-off) := by rw [List.length_take,List.length_drop]
    have some : ¬ (src.drop off).take BUF_SIZE = [] := by
      intro none
      rw [none] at more
      have : BUF_SIZE = 256 := rfl
      simp only [List.length_nil] at more
      omega
    have chunk : (src.drop off).take BUF_SIZE = (src.drop off).take (min BUF_SIZE (src.length-off)) := by
      rw [← List.length_drop,List.take_eq_take_min]
    rw [if_neg some,more,chunk,partly_write there (by rw [List.length_drop]; omega) inside small]
    rw [if_pos rfl]
    refine ih (off+min BUF_SIZE (src.length-off)) (by omega) ?_
    have : BUF_SIZE = 256 := rfl
    omega

theorem copy_file :
    Returns (fun fuel => copy i j fuel fs 0 0 typed) (fs.setBytes j (src ++ old.drop src.length)) := by
  obtain ⟨m,known⟩ := bytes_inode there
  refine ⟨src.length+1,fun fuel enough => ?_⟩
  have start : fs.partly j src old 0 = fs := by
    rw [Disk.partly,setBytes_eq known,List.take_zero,List.drop_zero,List.nil_append,put_same known]
  have done := copy_from here there small typed fuel 0 (Nat.zero_le _) (by omega)
  rw [start] at done
  exact done

end

structure Created (fs opened : Disk) (j dp : Nat) (name : Name) (t : Table Name Nat) : Prop where
  parent : fs.table dp = some t
  result : (t.get name = some j ∧ (fs.bytes j).isSome ∧ opened = fs) ∨ (t.get name = none ∧ fs.inode j = none ∧
    opened = (fs.put j (some ⟨1,.file []⟩)).put dp (some ⟨fs.nlink dp,.dir (t.put t.vacant (some (name,j)))⟩))

theorem create_done (made : create fs cwd path = .done (j,opened)) : ∃ dp name t, nameiparent fs cwd path = some (dp,name) ∧
    Created fs opened j dp name t := by
  unfold create at made
  cases parent : nameiparent fs cwd path with
  | none =>
    rw [parent] at made
    cases made
  | some place =>
    obtain ⟨dp,name⟩ := place
    rw [parent] at made
    dsimp only at made
    cases dir : fs.table dp with
    | none =>
      rw [dir] at made
      cases made
    | some t =>
      rw [dir] at made
      dsimp only at made
      refine ⟨dp,name,t,rfl,dir,?_⟩
      cases found : t.get name with
      | some ip =>
        rw [found] at made
        dsimp only at made
        split at made
        · rename_i regular
          cases made
          exact .inl ⟨rfl,regular,rfl⟩
        · cases made
      | none =>
        rw [found] at made
        cases fresh : ialloc fs with
        | none =>
          rw [fresh] at made
          cases made
        | some ip =>
          rw [fresh] at made
          dsimp only at made
          split at made
          · cases made
          · cases made
            have free := List.find?_some fresh
            exact .inr ⟨rfl,Option.isNone_iff_eq_none.mp free,rfl⟩

section
variable {opened : Disk} {t : Table Name Nat}

section
variable (created : Created fs opened j dp name t)
include created

theorem Created.apart (new : fs.inode j = none) : j ≠ dp := by
  rintro rfl
  obtain ⟨n,known⟩ := table_inode created.parent
  rw [new] at known
  cases known

theorem Created.bytes : opened.bytes j = some ((fs.bytes j).getD []) := by
  rcases created.result with ⟨_,regular,rfl⟩ | ⟨_,new,rfl⟩
  · exact (Option.some_get regular).symm.trans (by rw [Option.get_eq_getD])
  have none : fs.bytes j = none := by
    rw [Disk.bytes,new]
    rfl
  rw [none,Disk.bytes,inode_put_ne (created.apart new),inode_put]
  rfl

theorem Created.keeps (known : fs.inode k = some v) (other : k ≠ dp) : opened.inode k = some v := by
  rcases created.result with ⟨_,_,rfl⟩ | ⟨_,new,rfl⟩
  · exact known
  have fresh : k ≠ j := by
    rintro rfl
    rw [new] at known
    cases known
  rw [inode_put_ne other,inode_put_ne fresh,known]

theorem Created.file (known : fs.table k = none) (some : fs.inode k = Option.some v) :
    opened.inode k = Option.some v := by
  refine created.keeps some ?_
  rintro rfl
  rw [created.parent] at known
  cases known

end

end

def Spared (fs last : Disk) (j cwd : Nat) (path : List UInt8) : Prop :=
  ∀ k ≠ j, last.inode k = fs.inode k ∨ fs.inode j = none ∧ ∃ name n t, nameiparent fs cwd path = some (k,name) ∧
    fs.inode k = some ⟨n,.dir t⟩ ∧ last.inode k = some ⟨n,.dir (t.put t.vacant (some (name,j)))⟩

theorem Created.spared (created : Created fs opened j dp name t) (parent : nameiparent fs cwd path = some (dp,name)) (b : List UInt8) :
    Spared fs (opened.setBytes j b) j cwd path := by
  intro k other
  rw [Disk.setBytes,inode_put_ne other]
  rcases created.result with ⟨_,_,rfl⟩ | ⟨_,new,rfl⟩
  · exact .inl rfl
  by_cases here : k = dp
  · subst here
    obtain ⟨n,known⟩ := table_inode created.parent
    have links : fs.nlink k = n := by rw [Disk.nlink,known]
    refine .inr ⟨new,name,n,t,parent,known,?_⟩
    rw [inode_put,links]
  · refine .inl ?_
    rw [inode_put_ne here,inode_put_ne other]

theorem cp_runs (ok : fs.Ok) (source : namei fs cwd src = some i) (regular : fs.bytes i = some bytes) (typed : List (List UInt8))
    (made : create fs cwd (completed src dst) = .done (j,opened)) (short : (completed src dst).length < 128) :
    Returns (fun fuel => cp fuel fs cwd typed src dst) (.copied (opened.setBytes j (bytes ++ ((fs.bytes j).getD []).drop bytes.length))) := by
  obtain ⟨dp,name,t,_,created⟩ := create_done made
  have mine : opened.bytes i = some bytes := by
    obtain ⟨n,known⟩ := bytes_inode regular
    rw [Disk.bytes,created.file (bytes_not_table regular) known]
    rfl
  obtain ⟨most,ran⟩ := copy_file mine created.bytes (ok.sizes regular) typed
  refine ⟨most,fun fuel enough => ?_⟩
  have done := ran fuel enough
  dsimp only at done ⊢
  rw [cp,source]
  dsimp only
  rw [bytes_not_table regular,if_neg (by simp),if_neg (by omega),made]
  dsimp only
  rw [done]
  rfl

end

def pairTable : Table Name Nat := ⟨4,fun k => if k = 0 then some ([46],1) else if k = 1 then some ([46,46],1) else if k = 2 then some ([97],2) else
  if k = 3 then some ([98],3) else none⟩

def pairDisk (a b : List UInt8) : Disk := ⟨10,fun i => if i = 1 then some ⟨1,.dir pairTable⟩ else if i = 2 then some ⟨1,.file a⟩ else
  if i = 3 then some ⟨1,.file b⟩ else none⟩

theorem pairTable_entry (inside : k < 4) (here : pairTable.entry k = some (name,j)) :
    k = 0 ∧ name = [46] ∧ j = 1 ∨ k = 1 ∧ name = [46,46] ∧ j = 1 ∨ k = 2 ∧ name = [97] ∧ j = 2 ∨ k = 3 ∧ name = [98] ∧ j = 3 := by
  have cases : k = 0 ∨ k = 1 ∨ k = 2 ∨ k = 3 := by omega
  rcases cases with rfl | rfl | rfl | rfl
  · cases here
    exact .inl ⟨rfl,rfl,rfl⟩
  · cases here
    exact .inr (.inl ⟨rfl,rfl,rfl⟩)
  · cases here
    exact .inr (.inr (.inl ⟨rfl,rfl,rfl⟩))
  · cases here
    exact .inr (.inr (.inr ⟨rfl,rfl,rfl⟩))

theorem pairTable_unique : pairTable.Unique := by
  intro j k key v w one two first second
  have here := pairTable_entry one first
  have there := pairTable_entry two second
  grind -linarith

theorem pairDisk_table (here : (pairDisk a b).table i = some t) : i = 1 ∧ t = pairTable := by
  unfold Disk.table pairDisk at here
  dsimp only at here
  split at here
  · rename_i root
    cases here
    exact ⟨root,rfl⟩
  split at here
  · cases here
  · split at here
    · cases here
    · cases here

theorem pairDisk_ok (first : a.length ≤ MAXFILE) (second : b.length ≤ MAXFILE) : (pairDisk a b).Ok := by
  have got : ∀ {i t name j}, (pairDisk a b).table i = some t → t.get name = some j → (name = [46] ∨ name = [46,46]) ∧ j = 1 ∨ j = 2 ∨ j = 3 := by
    intro i t name j here found
    obtain ⟨rfl,rfl⟩ := pairDisk_table here
    obtain ⟨k,inside,entry⟩ := (Table.get_some pairTable_unique).mp found
    rcases pairTable_entry inside entry with ⟨_,rfl,rfl⟩ | ⟨_,rfl,rfl⟩ | ⟨_,_,rfl⟩ | ⟨_,_,rfl⟩
    · exact .inl ⟨.inl rfl,rfl⟩
    · exact .inl ⟨.inr rfl,rfl⟩
    · exact .inr (.inl rfl)
    · exact .inr (.inr rfl)
  refine ⟨rfl,fun here => ?_,fun here found => ?_,fun here found dot => ?_,fun {i c} here => ?_,fun {i v} here places once all => ?_⟩
  · obtain ⟨_,rfl⟩ := pairDisk_table here
    exact pairTable_unique
  · rcases got here found with ⟨_,rfl⟩ | rfl | rfl
    · rfl
    · rfl
    · rfl
  · obtain ⟨rfl,rfl⟩ := pairDisk_table here
    obtain ⟨k,inside,entry⟩ := (Table.get_some pairTable_unique).mp found
    rcases pairTable_entry inside entry with ⟨_,_,rfl⟩ | ⟨_,_,rfl⟩ | ⟨_,rfl,_⟩ | ⟨_,rfl,_⟩
    · rfl
    · rfl
    · simp at dot
    · simp at dot
  · unfold Disk.bytes pairDisk at here
    dsimp only at here
    split at here
    · cases here
    split at here
    · cases here
      exact first
    · split at here
      · cases here
        exact second
      · cases here
  · have only : ∀ place ∈ places, place = (1,i) ∧ (i = 2 ∨ i = 3) := fun place member => by
      obtain ⟨t,name,dir,inside,entry,dot,dots⟩ := all place member
      obtain ⟨one,rfl⟩ := pairDisk_table dir
      obtain ⟨d,k⟩ := place
      subst one
      rcases pairTable_entry inside entry with ⟨_,no,_⟩ | ⟨_,no,_⟩ | ⟨rfl,_,rfl⟩ | ⟨rfl,_,rfl⟩
      · exact absurd no dot
      · exact absurd no dots
      · exact ⟨rfl,.inl rfl⟩
      · exact ⟨rfl,.inr rfl⟩
    have single : places.length ≤ 1 := by
      cases places with
      | nil => exact Nat.zero_le 1
      | cons x rest =>
        cases rest with
        | nil => exact Nat.le_refl 1
        | cons y rest =>
          have same := ((only x (.head _)).1.trans (only y (.tail _ (.head _))).1.symm)
          exact absurd (by rw [same]; exact (.head _)) (List.nodup_cons.mp once).1
    have linked : 1 ≤ v.nlink := by
      unfold pairDisk at here
      dsimp only at here
      split at here
      · cases here
        exact Nat.le_refl 1
      split at here
      · cases here
        exact Nat.le_refl 1
      · split at here
        · cases here
          exact Nat.le_refl 1
        · cases here
    omega

theorem pairDisk_source (a b : List UInt8) : namei (pairDisk a b) 1 [97] = some 2 := rfl

theorem pairDisk_create (a b : List UInt8) : create (pairDisk a b) 1 (completed [97] [98]) = .done (3,pairDisk a b) := rfl

end Xv6.User.Files
