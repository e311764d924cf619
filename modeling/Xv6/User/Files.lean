import Xv6.Lib.Runs
import Xv6.Fs.File
import Xv6.Fs.Path

namespace Xv6.User.Files
open Slots
open Xv6.Fs.Core (parts)

-- The file system as a program sees it: inodes with their contents, and the system calls on paths.

abbrev Name := List UInt8

inductive Node where
  | dir (table : Table Name Nat)
  | file (bytes : List UInt8)
  | dev

structure Inode where
  nlink : Nat
  node : Node

structure Disk where
  ninodes : Nat
  inode : Nat → Option Inode

def Disk.put (fs : Disk) (i : Nat) (v : Option Inode) : Disk := { fs with inode := Function.update fs.inode i v }

def tableOf : Option Inode → Option (Table Name Nat)
  | some ⟨_,.dir t⟩ => some t
  | _ => none

def bytesOf : Option Inode → Option (List UInt8)
  | some ⟨_,.file b⟩ => some b
  | _ => none

def Disk.table (fs : Disk) (i : Nat) : Option (Table Name Nat) := tableOf (fs.inode i)

def Disk.bytes (fs : Disk) (i : Nat) : Option (List UInt8) := bytesOf (fs.inode i)

-- What a system call comes back with; a panic does not come back.
inductive Call (α : Type) where
  | done (a : α)
  | failed
  | panic

def ROOTINO : Nat := 1

def MAXFILE : Nat := 71680

-- From inode i along the names.
def walk (fs : Disk) : Nat → List Name → Option Nat
  | i,[] => some i
  | i,name :: names => (fs.table i).bind fun t => (t.get name).bind fun j => walk fs j names

def origin (cwd : Nat) (path : List UInt8) : Nat := if path.headD 0 = 47 then ROOTINO else cwd

def namei (fs : Disk) (cwd : Nat) (path : List UInt8) : Option Nat := walk fs (origin cwd path) (parts path)

def nameiparent (fs : Disk) (cwd : Nat) (path : List UInt8) : Option (Nat × Name) :=
  (parts path).getLast?.bind fun name =>
    ((walk fs (origin cwd path) (parts path).dropLast).filter fun d => (fs.table d).isSome).map fun d => (d,name)

def ialloc (fs : Disk) : Option Nat := (List.range' 1 (fs.ninodes-1)).find? fun i => (fs.inode i).isNone

def Disk.nlink (fs : Disk) (i : Nat) : Nat :=
  match fs.inode i with
  | some v => v.nlink
  | none => 0

-- sys_open with O_CREATE: a file that is there is opened as it is. A directory holds as many entries as a file has room for.
def create (fs : Disk) (cwd : Nat) (path : List UInt8) : Call (Nat × Disk) :=
  match nameiparent fs cwd path with
  | none => .failed
  | some (dp,name) =>
    match fs.table dp with
    | none => .failed
    | some t =>
      match t.get name with
      | some ip => if (fs.bytes ip).isSome then .done (ip,fs) else .failed
      | none =>
        match ialloc fs with
        | none => .panic
        | some ip =>
          if MAXFILE ≤ 16*t.vacant then .panic
          else .done (ip,(fs.put ip (some ⟨1,.file []⟩)).put dp (some ⟨fs.nlink dp,.dir (t.put t.vacant (some (name,ip)))⟩))

def isdirempty (t : Table Name Nat) : Bool := (List.range t.count).all fun k => k < 2 || (t.entry k).isNone

-- An inode without links is freed, as no file is open on it.
def unlink (fs : Disk) (cwd : Nat) (path : List UInt8) : Call Disk :=
  match nameiparent fs cwd path with
  | none => .failed
  | some (dp,name) =>
    if name = [46] ∨ name = [46,46] then .failed
    else
      match fs.table dp with
      | none => .failed
      | some t =>
        match t.find name with
        | none => .failed
        | some k =>
          match (t.entry k).bind fun e => (fs.inode e.2).map fun v => (e.2,v) with
          | none => .failed
          | some (ip,v) =>
            if v.nlink < 1 then .panic
            else
              match v.node with
              | .dir inner =>
                if isdirempty inner then
                  let fs := fs.put dp (some ⟨fs.nlink dp-1,.dir (t.put k none)⟩)
                  .done (fs.put ip (if v.nlink = 1 then none else some { v with nlink := v.nlink-1 }))
                else .failed
              | _ =>
                let fs := fs.put dp (some ⟨fs.nlink dp,.dir (t.put k none)⟩)
                .done (fs.put ip (if v.nlink = 1 then none else some { v with nlink := v.nlink-1 }))

def chdir (fs : Disk) (cwd : Nat) (path : List UInt8) : Call Nat :=
  match namei fs cwd path with
  | none => .failed
  | some ip => if (fs.table ip).isSome then .done ip else .failed

-- read of at most n bytes; typed is what a device is going to give.
def read (fs : Disk) (i off n : Nat) (typed : List (List UInt8)) : List UInt8 × List (List UInt8) :=
  match fs.inode i with
  | some ⟨_,.file b⟩ => ((b.drop off).take n,typed)
  | some ⟨_,.dev⟩ => ((typed.headD []).take n,typed.tail)
  | _ => ([],typed)

def Disk.setBytes (fs : Disk) (i : Nat) (b : List UInt8) : Disk := fs.put i ((fs.inode i).map fun v => { v with node := .file b })

-- write to a regular file; false is -1.
def write (fs : Disk) (i off : Nat) (buf : List UInt8) : Disk × Bool :=
  match fs.bytes i with
  | some b =>
    if off ≤ b.length ∧ off+buf.length ≤ MAXFILE then (fs.setBytes i (b.take off ++ buf ++ b.drop (off+buf.length)),true) else (fs,false)
  | none => (fs,false)

-- A file system in order. Names of a directory are distinct, its entries name inodes in use, "." and ".." are directories, and an
-- inode counts at least the other entries that name it.
def Names (fs : Disk) (i : Nat) (place : Nat × Nat) : Prop :=
  ∃ t name, fs.table place.1 = some t ∧ place.2 < t.count ∧ t.entry place.2 = some (name,i) ∧ name ≠ [46] ∧ name ≠ [46,46]

structure Disk.Ok (fs : Disk) : Prop where
  root : (fs.table ROOTINO).isSome
  unique : fs.table i = some t → t.Unique
  used : fs.table i = some t → t.get name = some j → (fs.inode j).isSome
  dots : fs.table i = some t → t.get name = some j → name = [46] ∨ name = [46,46] → (fs.table j).isSome
  sizes : fs.bytes i = some b → b.length ≤ MAXFILE
  counts : fs.inode i = some v → ∀ places : List (Nat × Nat), places.Nodup → (∀ place ∈ places, Names fs i place) → places.length ≤ v.nlink

section
variable {fs : Disk}

theorem inode_put (fs : Disk) (i : Nat) (v : Option Inode) : (fs.put i v).inode i = v := Function.update_self ..

theorem inode_put_ne (other : j ≠ i) (fs : Disk) (v : Option Inode) : (fs.put i v).inode j = fs.inode j := Function.update_of_ne other ..

theorem table_put (fs : Disk) (i : Nat) (v : Option Inode) : (fs.put i v).table i = tableOf v := by rw [Disk.table,inode_put]

theorem table_put_ne (other : j ≠ i) (fs : Disk) (v : Option Inode) : (fs.put i v).table j = fs.table j := by
  rw [Disk.table,inode_put_ne other,Disk.table]

theorem put_same (same : fs.inode i = v) : fs.put i v = fs := by
  unfold Disk.put
  rw [← same,Function.update_eq_self]

theorem put_put (fs : Disk) (i : Nat) (v w : Option Inode) : (fs.put i v).put i w = fs.put i w := by
  unfold Disk.put
  rw [Function.update_idem]

theorem bytes_inode (here : fs.bytes i = some b) : ∃ n, fs.inode i = some ⟨n,.file b⟩ := by
  unfold Disk.bytes bytesOf at here
  split at here
  · rename_i known
    cases here
    exact ⟨_,known⟩
  · cases here

theorem table_inode (here : fs.table i = some t) : ∃ n, fs.inode i = some ⟨n,.dir t⟩ := by
  unfold Disk.table tableOf at here
  split at here
  · rename_i known
    cases here
    exact ⟨_,known⟩
  · cases here

theorem bytes_not_table (here : fs.bytes i = some b) : fs.table i = none := by
  obtain ⟨n,known⟩ := bytes_inode here
  rw [Disk.table,known]
  rfl

theorem setBytes_eq (known : fs.inode i = some ⟨n,.file b⟩) (c : List UInt8) : fs.setBytes i c = fs.put i (some ⟨n,.file c⟩) := by
  rw [Disk.setBytes,known]
  rfl

end

-- The disk of the kernel's model, seen so.
def view (L : Fs.Core.Layout) (s : Fs.Core.State) : Disk where
  ninodes := L.ninodes
  inode i :=
    let d := Fs.dinodeAt (L.view s.log) i
    if d.type = 0 then none
    else some ⟨d.nlink,if d.type = 1 then .dir (Fs.Core.entries L s i) else if d.type = 2 then .file (Fs.Core.text L s i) else .dev⟩

section
variable {L : Fs.Core.Layout} {s : Fs.Core.State}

theorem view_table (L : Fs.Core.Layout) (s : Fs.Core.State) (i : Nat) :
    (view L s).table i = if (Fs.dinodeAt (L.view s.log) i).type = 1 then some (Fs.Core.entries L s i) else none := by
  unfold Disk.table view
  dsimp only
  by_cases dir : (Fs.dinodeAt (L.view s.log) i).type = 1
  · rw [if_pos dir,if_neg (show ¬ (Fs.dinodeAt (L.view s.log) i).type = 0 by omega),if_pos dir]
    rfl
  rw [if_neg dir,if_neg dir]
  split
  · rfl
  · split
    · rfl
    · rfl

theorem walk_view (L : Fs.Core.Layout) (s : Fs.Core.State) (names : List Name) : ∀ i, walk (view L s) i names = Fs.Core.reach L s i names := by
  induction names with
  | nil => intro i; rfl
  | cons name names ih =>
    intro i
    rw [walk,Fs.Core.reach,view_table]
    split
    · rw [Option.bind_some]
      exact congrArg _ (funext ih)
    · rfl

theorem namei_view (tree : Fs.Core.Tree L s dn) (here : 0 < (s.icache cwd).ref) (clean : 0 ∉ path) (name : Bytes.Store) :
    Exec.Sat (Fs.Core.namei cwd path name) s (Fs.Core.NoSlot s) fun ip next =>
      Fs.Core.Answer L s next dn ip (namei (view L s) (s.icache cwd).inum path) := by
  refine (Fs.Core.namex_spec tree here clean false name).bind ?_
  rintro r next ⟨answer,_⟩
  rw [Exec.sat_pure,namei,walk_view]
  exact answer

end

end Xv6.User.Files
