import Xv6.User.Copy

namespace Xv6.User.Files
open Slots Runs
open Xv6.Fs.Core (parts)

-- mv: which entries the paths name, and what is left after the unlink.

section
variable {fs next : Disk} {t : Table Name Nat}

theorem walk_onward (names rest : List Name) : ∀ i, walk fs i (names ++ rest) = (walk fs i names).bind fun d => walk fs d rest := by
  induction names with
  | nil =>
    intro i
    rfl
  | cons n names ih =>
    intro i
    rw [List.cons_append,walk,walk]
    cases fs.table i with
    | none => rfl
    | some t =>
      rw [Option.bind_some,Option.bind_some]
      cases t.get n with
      | none => rfl
      | some j => exact ih j

theorem walk_append (names : List Name) (name : Name) (i : Nat) : walk fs i (names ++ [name]) =
    (walk fs i names).bind fun d => (fs.table d).bind fun t => t.get name := by
  rw [walk_onward]
  congr 1
  funext d
  rw [walk]
  congr 1
  funext t
  exact Option.bind_fun_some _

theorem namei_of_parent (parent : nameiparent fs cwd path = some (d,name)) (dir : fs.table d = some t) : namei fs cwd path = t.get name := by
  obtain ⟨last,ends,rest⟩ := Option.bind_eq_some_iff.mp parent
  obtain ⟨e,found,same⟩ := Option.map_eq_some_iff.mp rest
  cases same
  obtain ⟨arrived,_⟩ := Option.filter_eq_some_iff.mp found
  have split : parts path = (parts path).dropLast ++ [name] := (List.dropLast_append_getLast? name ends).symm
  rw [namei,split,walk_append,arrived,Option.bind_some,dir,Option.bind_some]

theorem namei_parent (found : namei fs cwd path = some i) (long : parts path ≠ []) :
    ∃ d name t, nameiparent fs cwd path = some (d,name) ∧ fs.table d = some t ∧ t.get name = some i := by
  have split : parts path = (parts path).dropLast ++ [(parts path).getLast long] := (List.dropLast_append_getLast long).symm
  have ends : (parts path).getLast? = some ((parts path).getLast long) := List.getLast?_eq_some_getLast long
  rw [namei,split,walk_append] at found
  obtain ⟨d,arrived,rest⟩ := Option.bind_eq_some_iff.mp found
  obtain ⟨t,dir,entry⟩ := Option.bind_eq_some_iff.mp rest
  refine ⟨d,_,t,?_,dir,entry⟩
  rw [nameiparent,ends,Option.bind_some,arrived,Option.filter_some,if_pos (by rw [dir]; rfl)]
  rfl

def Grows (fs next : Disk) : Prop := ∀ d t, fs.table d = some t → ∃ u, next.table d = some u ∧ ∀ name j, t.get name = some j → u.get name = some j

theorem Grows.walk (grows : Grows fs next) (names : List Name) : ∀ {i}, walk fs i names = some j → walk next i names = some j := by
  induction names with
  | nil =>
    intro i arrived
    exact arrived
  | cons name names ih =>
    intro i arrived
    rw [Files.walk] at arrived ⊢
    obtain ⟨t,dir,rest⟩ := Option.bind_eq_some_iff.mp arrived
    obtain ⟨e,entry,later⟩ := Option.bind_eq_some_iff.mp rest
    obtain ⟨u,also,more⟩ := grows i t dir
    rw [also,Option.bind_some,more name e entry,Option.bind_some]
    exact ih later

theorem parent_of_walk (same : ∀ names i d, walk fs i names = some d → (fs.table d).isSome → walk next i names = some d ∧ (next.table d).isSome)
    (parent : nameiparent fs cwd path = some (d,name)) : nameiparent next cwd path = some (d,name) := by
  unfold nameiparent at parent ⊢
  obtain ⟨last,ends,rest⟩ := Option.bind_eq_some_iff.mp parent
  obtain ⟨e,found,eq⟩ := Option.map_eq_some_iff.mp rest
  cases eq
  obtain ⟨arrived,dir⟩ := Option.filter_eq_some_iff.mp found
  obtain ⟨also,dir⟩ := same _ _ _ arrived dir
  rw [ends,Option.bind_some,also,Option.filter_some,if_pos dir]
  rfl

theorem Grows.parent (grows : Grows fs next) (parent : nameiparent fs cwd path = some (d,name)) : nameiparent next cwd path = some (d,name) := by
  refine parent_of_walk (fun names i d arrived dir => ?_) parent
  obtain ⟨t,known⟩ := Option.isSome_iff_exists.mp dir
  obtain ⟨u,also,_⟩ := grows d t known
  exact ⟨grows.walk names arrived,by rw [also]; rfl⟩

theorem table_setBytes (file : fs.bytes j = some old) (b : List UInt8) (d : Nat) : (fs.setBytes j b).table d = fs.table d := by
  obtain ⟨n,known⟩ := bytes_inode file
  rw [setBytes_eq known]
  by_cases here : d = j
  · subst here
    rw [table_put,bytes_not_table file]
    rfl
  · exact table_put_ne here ..

section
variable (ok : fs.Ok) (created : Created fs opened j dp name t)
include ok created

theorem Created.grows : Grows fs opened := by
  intro d u dir
  rcases created.result with ⟨_,_,rfl⟩ | ⟨absent,new,rfl⟩
  · exact ⟨u,dir,fun _ _ entry => entry⟩
  by_cases here : d = dp
  · subst here
    rw [created.parent] at dir
    cases dir
    refine ⟨_,table_put ..,fun n e entry => ?_⟩
    rw [Table.get_insert (ok.unique created.parent) absent,Function.update_of_ne]
    · exact entry
    · rintro rfl
      rw [absent] at entry
      cases entry
  · have fresh : d ≠ j := by
      rintro rfl
      rw [Disk.table,new] at dir
      cases dir
    exact ⟨u,by rw [table_put_ne here,table_put_ne fresh,dir],fun _ _ entry => entry⟩

theorem Created.entry : ∃ u, opened.table dp = some u ∧ u.get name = some j ∧ u.Unique := by
  rcases created.result with ⟨found,_,rfl⟩ | ⟨absent,_,rfl⟩
  · exact ⟨t,created.parent,found,ok.unique created.parent⟩
  · have unique := ok.unique created.parent
    refine ⟨_,table_put ..,?_,unique.insert absent⟩
    rw [Table.get_insert unique absent,Function.update_self]

theorem Created.unique (dir : opened.table d = some u) : u.Unique := by
  rcases created.result with ⟨_,_,rfl⟩ | ⟨absent,_,rfl⟩
  · exact ok.unique dir
  by_cases here : d = dp
  · subst here
    rw [table_put] at dir
    cases dir
    exact (ok.unique created.parent).insert absent
  rw [table_put_ne here] at dir
  by_cases fresh : d = j
  · subst fresh
    rw [table_put] at dir
    cases dir
  · rw [table_put_ne fresh] at dir
    exact ok.unique dir

end

end

-- The unlink of a file: its entry goes, and its inode with the last link.
section
variable {fs : Disk} {t : Table Name Nat} {v : Inode}

def Disk.without (fs : Disk) (dp : Nat) (t : Table Name Nat) (k i : Nat) (v : Inode) : Disk :=
  (fs.put dp (some ⟨fs.nlink dp,.dir (t.put k none)⟩)).put i (if v.nlink = 1 then none else some { v with nlink := v.nlink-1 })

theorem unlink_file (parent : nameiparent fs cwd path = some (dp,name)) (dot : ¬ (name = [46] ∨ name = [46,46])) (dir : fs.table dp = some t)
    (found : t.find name = some k) (entry : t.entry k = some (name,i)) (known : fs.inode i = some v) (plain : fs.table i = none) (linked : 1 ≤ v.nlink) :
    unlink fs cwd path = .done (fs.without dp t k i v) := by
  rw [unlink,parent]
  dsimp only
  rw [if_neg dot,dir]
  dsimp only
  rw [found]
  dsimp only
  rw [entry,Option.bind_some,known,Option.map_some]
  dsimp only
  rw [if_neg (by omega)]
  obtain ⟨n,node⟩ := v
  cases node with
  | dir inner =>
    rw [Disk.table,known] at plain
    cases plain
  | file b => rfl
  | dev => rfl

theorem without_table (dir : fs.table dp = some t) (plain : fs.table i = none) (d : Nat) (node : tableOf (some v) = none) :
    (fs.without dp t k i v).table d = if d = dp then some (t.put k none) else fs.table d := by
  have other : dp ≠ i := by
    rintro rfl
    rw [dir] at plain
    cases plain
  have gone : tableOf (if v.nlink = 1 then none else some { v with nlink := v.nlink-1 }) = none := by
    obtain ⟨n,kind⟩ := v
    split
    · rfl
    · cases kind with
      | dir inner => cases node
      | file b => rfl
      | dev => rfl
  unfold Disk.without
  by_cases mine : d = i
  · subst mine
    rw [table_put,gone,if_neg other.symm,plain]
  rw [table_put_ne mine]
  by_cases here : d = dp
  · rw [if_pos here,here,table_put]
    rfl
  · rw [if_neg here,table_put_ne here]

section
variable (unique : t.Unique) (dir : fs.table dp = some t) (found : t.find name = some k) (entry : t.entry k = some (name,i))
  (plain : fs.table i = none) (node : tableOf (some v) = none)
include unique dir found entry plain node

theorem walk_without (names : List Name) : ∀ {e}, walk fs e names = some d → (fs.table d).isSome →
      walk (fs.without dp t k i v) e names = some d := by
  induction names with
  | nil =>
    intro e arrived _
    exact arrived
  | cons n names ih =>
    intro e arrived there
    rw [walk] at arrived ⊢
    obtain ⟨u,at_e,rest⟩ := Option.bind_eq_some_iff.mp arrived
    obtain ⟨f,next,later⟩ := Option.bind_eq_some_iff.mp rest
    have on := ih later there
    rw [without_table dir plain e node]
    by_cases here : e = dp
    · subst here
      rw [dir] at at_e
      cases at_e
      rw [if_pos rfl,Option.bind_some,Table.get_erase unique found]
      by_cases same : n = name
      · -- it would have gone through the file
        subst same
        obtain ⟨small,_⟩ := Table.find_some found
        have hit := (Table.get_some unique).mpr ⟨k,small,entry⟩
        rw [hit] at next
        cases next
        cases names with
        | nil =>
          cases later
          rw [plain] at there
          cases there
        | cons m names =>
          rw [walk,plain] at later
          cases later
      · rw [Function.update_of_ne same,next,Option.bind_some]
        exact on
    · rw [if_neg here,at_e,Option.bind_some,next,Option.bind_some]
      exact on

theorem parent_without (parent : nameiparent fs cwd path = some (d,n)) :
    nameiparent (fs.without dp t k i v) cwd path = some (d,n) := by
  refine parent_of_walk (fun names e f arrived there => ⟨walk_without unique dir found entry plain node names arrived there,?_⟩) parent
  rw [without_table dir plain f node]
  split
  · rfl
  · exact there

end

end

-- Whatever is read, only the destination changes.
section
variable {fs : Disk} {old : List UInt8}

section
variable (there : fs.bytes j = some old)
include there

theorem setBytes_self : fs.setBytes j old = fs := by
  obtain ⟨n,known⟩ := bytes_inode there
  rw [setBytes_eq known,put_same known]

theorem setBytes_setBytes (a b : List UInt8) : (fs.setBytes j a).setBytes j b = fs.setBytes j b := by
  obtain ⟨n,known⟩ := bytes_inode there
  rw [setBytes_eq known,setBytes_eq known,setBytes_eq (inode_put ..),put_put]

theorem bytes_setBytes (b : List UInt8) : (fs.setBytes j b).bytes j = some b := by
  obtain ⟨n,known⟩ := bytes_inode there
  rw [setBytes_eq known,Disk.bytes,inode_put]
  rfl

theorem write_bytes (off : Nat) (buf : List UInt8) : ∃ b written, write fs j off buf = (fs.setBytes j b,written) := by
  rw [write,there]
  dsimp only
  split
  · exact ⟨_,_,rfl⟩
  · exact ⟨old,false,by rw [setBytes_self there]⟩

end

theorem copy_dev (other : i ≠ j) (typed : List (List UInt8)) : ∀ {fs : Disk} {old} off dest, fs.inode i = some ⟨n,.dev⟩ → fs.bytes j = some old →
    ∃ b, ∀ fuel, typed.length < fuel → copy i j fuel fs off dest typed = some (fs.setBytes j b) := by
  induction typed with
  | nil =>
    intro fs old off dest device there
    refine ⟨old,fun fuel enough => ?_⟩
    obtain ⟨fuel,rfl⟩ : ∃ k, fuel = k+1 := ⟨fuel-1,by omega⟩
    rw [copy,read,device]
    dsimp only
    rw [if_pos (show ([].headD []).take BUF_SIZE = ([] : List UInt8) from rfl),setBytes_self there]
  | cons piece typed ih =>
    intro fs old off dest device there
    by_cases none : piece.take BUF_SIZE = []
    · refine ⟨old,fun fuel enough => ?_⟩
      obtain ⟨fuel,rfl⟩ : ∃ k, fuel = k+1 := ⟨fuel-1,by omega⟩
      rw [copy,read,device]
      dsimp only [List.headD_cons]
      rw [if_pos none,setBytes_self there]
    obtain ⟨a,written,wrote⟩ := write_bytes there dest (piece.take BUF_SIZE)
    have still : (fs.setBytes j a).inode i = some ⟨n,.dev⟩ := by rw [Disk.setBytes,inode_put_ne other,device]
    obtain ⟨b,ran⟩ := ih (off+(piece.take BUF_SIZE).length) (if written then dest+(piece.take BUF_SIZE).length else dest) still (bytes_setBytes there a)
    refine ⟨b,fun fuel enough => ?_⟩
    obtain ⟨fuel,rfl⟩ : ∃ k, fuel = k+1 := ⟨fuel-1,by omega⟩
    rw [List.length_cons] at enough
    rw [copy,read,device]
    dsimp only [List.headD_cons,List.tail_cons]
    rw [if_neg none,wrote]
    rw [ran fuel (by omega),setBytes_setBytes there]

theorem copy_any (ok : ∀ {b}, fs.bytes i = some b → b.length ≤ MAXFILE) (known : fs.inode i = some v) (plain : fs.table i = none) (there : fs.bytes j = some old) (typed : List (List UInt8)) :
    ∃ b, Returns (fun fuel => copy i j fuel fs 0 0 typed) (fs.setBytes j b) ∧ b.take ((fs.bytes i).getD []).length = (fs.bytes i).getD [] := by
  obtain ⟨n,node⟩ := v
  cases node with
  | dir t =>
    rw [Disk.table,known] at plain
    cases plain
  | file src =>
    have here : fs.bytes i = some src := by
      rw [Disk.bytes,known]
      rfl
    refine ⟨_,copy_file here there (ok here) typed,?_⟩
    rw [here,Option.getD_some,List.take_left]
  | dev =>
    have none : fs.bytes i = none := by
      rw [Disk.bytes,known]
      rfl
    have other : i ≠ j := by
      rintro rfl
      rw [none] at there
      cases there
    obtain ⟨b,ran⟩ := copy_dev other typed 0 0 known there
    exact ⟨b,⟨typed.length+1,fun fuel enough => ran fuel (by omega)⟩,by rw [none]; rfl⟩

end

section
variable {fs opened : Disk} {src dst : List UInt8} {t u : Table Name Nat}

section
variable (ok : fs.Ok) (dir : fs.table d = some t) (found : t.get name = some i)
include ok dir found

theorem Disk.Ok.entry_dot (plain : fs.table i = none) :
    ¬ (name = [46] ∨ name = [46,46]) := by
  intro dot
  have there := ok.dots dir found dot
  rw [plain] at there
  cases there

theorem Disk.Ok.names (plain : fs.table i = none) :
    ∃ k, Names fs i (d,k) ∧ t.entry k = some (name,i) := by
  obtain ⟨k,_,small,entry⟩ := Table.get_find found
  have dot := ok.entry_dot dir found plain
  exact ⟨k,⟨t,name,dir,small,entry,fun same => dot (.inl same),fun same => dot (.inr same)⟩,entry⟩

theorem Disk.Ok.linked (plain : fs.table i = none) (known : fs.inode i = some v) :
    1 ≤ v.nlink := by
  obtain ⟨k,named,_⟩ := ok.names dir found plain
  exact ok.counts known [(d,k)] (List.nodup_singleton _) fun place member => by rw [List.mem_singleton.mp member]; exact named

theorem Disk.Ok.linked_twice (also : fs.table e = some u)
    (other : u.get n = some i) (differ : (d,name) ≠ (e,n)) (plain : fs.table i = none) (known : fs.inode i = some v) : 2 ≤ v.nlink := by
  obtain ⟨k,named,first⟩ := ok.names dir found plain
  obtain ⟨l,again,second⟩ := ok.names also other plain
  refine ok.counts known [(d,k),(e,l)] ?_ fun place member => ?_
  · refine List.nodup_cons.mpr ⟨fun same => ?_,List.nodup_singleton _⟩
    cases List.mem_singleton.mp same
    rw [dir] at also
    cases also
    rw [first] at second
    cases second
    exact differ rfl
  · rcases List.mem_cons.mp member with rfl | more
    · exact named
    · rw [List.mem_singleton.mp more]
      exact again

end

theorem mv_runs (ok : fs.Ok) (source : namei fs cwd src = some i) (known : fs.inode i = some v) (plain : fs.table i = none)
    (made : create fs cwd (completed src dst) = .done (j,opened)) (short : (completed src dst).length < 128) (typed : List (List UInt8)) :
    ∃ b, b.take ((fs.bytes i).getD []).length = (fs.bytes i).getD [] ∧ ∀ final, unlink (opened.setBytes j b) cwd src = .done final →
      Returns (fun fuel => mv fuel fs cwd typed src dst) (.moved final) := by
  obtain ⟨dp,name,t,_,created⟩ := create_done made
  have mine := created.file plain known
  have same : opened.bytes i = fs.bytes i := by rw [Disk.bytes,mine,Disk.bytes,known]
  have flat : opened.table i = none := by
    rw [Disk.table,mine,← known]
    exact plain
  obtain ⟨b,⟨most,ran⟩,front⟩ := copy_any (fun here => ok.sizes (same.symm.trans here)) mine flat created.bytes typed
  rw [same] at front
  refine ⟨b,front,fun final gone => ⟨most,fun fuel enough => ?_⟩⟩
  have done : cp fuel fs cwd typed src dst = some (.copied (opened.setBytes j b)) := by
    have finished := ran fuel enough
    dsimp only at finished
    rw [cp,source]
    dsimp only
    rw [plain,if_neg (by simp),if_neg (by omega),made]
    dsimp only
    rw [finished]
    rfl
  show mv fuel fs cwd typed src dst = _
  rw [mv,done]
  dsimp only
  rw [gone]

theorem source_entry (ok : fs.Ok) (here : (fs.table cwd).isSome) (source : namei fs cwd src = some i) (plain : fs.table i = none) :
    ∃ d name t, nameiparent fs cwd src = some (d,name) ∧ fs.table d = some t ∧ t.get name = some i := by
  refine namei_parent source fun none => ?_
  rw [namei,none] at source
  have start : origin cwd src = i := Option.some.inj source
  rw [← start,origin] at plain
  split at plain
  · have root := ok.root
    rw [plain] at root
    cases root
  · rw [plain] at here
    cases here

theorem source_after (created : Created fs opened j e n u) (known : fs.inode i = some v) (plain : fs.table i = none) (b : List UInt8) :
    ∃ w : Inode, (opened.setBytes j b).inode i = some w ∧ w.nlink = v.nlink ∧ tableOf (some w) = none ∧ (j = i → w.node = .file b) := by
  have mine := created.file plain known
  by_cases same : i = j
  · subst same
    refine ⟨{ v with node := .file b },?_,rfl,rfl,fun _ => rfl⟩
    rw [Disk.setBytes,inode_put,mine]
    rfl
  · refine ⟨v,by rw [Disk.setBytes,inode_put_ne same,mine],rfl,?_,fun eq => absurd eq.symm same⟩
    rw [Disk.table,known] at plain
    exact plain

theorem unlink_after (ok : fs.Ok) (from_dir : nameiparent fs cwd src = some (d,name)) (dir : fs.table d = some t) (found : t.get name = some i)
    (known : fs.inode i = some v) (plain : fs.table i = none) (to_dir : nameiparent fs cwd path = some (e,n)) (created : Created fs opened j e n u)
    (b : List UInt8) : ∃ final, unlink (opened.setBytes j b) cwd src = .done final ∧ ((d,name) = (e,n) → namei final cwd path = none) ∧
      ((d,name) ≠ (e,n) → namei final cwd path = some j ∧ final.bytes j = some b) := by
  have there := created.bytes
  have tables := table_setBytes there b
  have grows : Grows fs (opened.setBytes j b) := fun d t dir => by
    obtain ⟨u,also,more⟩ := created.grows ok d t dir
    exact ⟨u,by rw [tables]; exact also,more⟩
  obtain ⟨t',dir',more⟩ := grows d t dir
  have unique : t'.Unique := by
    rw [tables] at dir'
    exact created.unique ok dir'
  obtain ⟨k,first,small,entry⟩ := Table.get_find (more name i found)
  obtain ⟨w,known',links,node,written⟩ := source_after created known plain b
  have plain' : (opened.setBytes j b).table i = none := by rw [Disk.table,known']; exact node
  have linked := ok.linked dir found plain known
  obtain ⟨u',to_table,to_entry,_⟩ := created.entry ok
  rw [← tables] at to_table
  have parent := parent_without unique dir' first entry plain' node (grows.parent to_dir)
  have final_table := without_table (k := k) dir' plain' e node
  refine ⟨_,unlink_file (grows.parent from_dir) (ok.entry_dot dir found plain) dir' first entry known' plain' (by omega),fun same => ?_,fun differ => ?_⟩
  · cases same
    rw [if_pos rfl] at final_table
    rw [namei_of_parent parent final_table,Table.get_erase unique first,Function.update_self]
  · have target : namei ((opened.setBytes j b).without d t' k i w) cwd path = some j := by
      by_cases here : e = d
      · subst here
        rw [dir'] at to_table
        cases to_table
        rw [if_pos rfl] at final_table
        rw [namei_of_parent parent final_table,Table.get_erase unique first,Function.update_of_ne (fun same => differ (by rw [same])),to_entry]
      · rw [if_neg here,to_table] at final_table
        rw [namei_of_parent parent final_table,to_entry]
    refine ⟨target,?_⟩
    by_cases same : j = i
    · -- a second link to the source
      have old : u.get n = some i ∧ opened = fs := by
        rcases created.result with ⟨found,_,rfl⟩ | ⟨_,new,_⟩
        · exact ⟨by rw [← same]; exact found,rfl⟩
        · rw [same,known] at new
          cases new
      have twice := ok.linked_twice dir found created.parent old.1 differ plain known
      rw [same,Disk.bytes,Disk.without,inode_put,if_neg (by omega),written same]
      rfl
    · have apart : j ≠ d := by
        rintro rfl
        rw [tables] at dir'
        rw [bytes_not_table there] at dir'
        cases dir'
      rw [Disk.bytes,Disk.without,inode_put_ne same,inode_put_ne apart]
      exact bytes_setBytes there b

end

end Xv6.User.Files
