import Xv6.Fs.Icache
import Xv6.Fs.File
import Xv6.Fs.Contents
import Xv6.Lib.Slots
import Xv6.Lib.Runs

namespace Xv6.Fs.Core
open Bytes Exec LogCrash Slots

-- Directories: the entries of the file are a table of names.

def cname : Nat → Bytes.Store → List UInt8
  | 0,_ => []
  | n+1,p => if p 0 = 0 then [] else p 0 :: cname n fun t => p (t+1)

theorem cname_congr : ∀ n {p q : Bytes.Store}, (∀ t < n, p t = q t) → cname n p = cname n q := by
  intro n
  induction n with
  | zero => intro p q _; rfl
  | succ n ih =>
    intro p q same
    rw [cname,cname,same 0 (by omega),ih fun t small => same (t+1) (by omega)]

theorem strncmp_cname (n : Nat) : ∀ p q : Bytes.Store, strncmp n p q = true ↔ cname n p = cname n q := by
  induction n with
  | zero => intro p q; simp [strncmp,cname]
  | succ n ih =>
    intro p q
    rw [strncmp,cname,cname]
    by_cases some : p 0 = 0
    · by_cases other : q 0 = 0
      · simp [some,other]
      · simp [some,other,Ne.symm other]
    by_cases same : p 0 = q 0
    · have other : q 0 ≠ 0 := same ▸ some
      rw [if_pos ⟨some,same⟩,if_neg some,if_neg other,ih,same]
      simp
    · rw [if_neg fun both => same both.2,if_neg some]
      by_cases other : q 0 = 0
      · simp [other,some]
      · simp [other,same]

theorem cname_strncpy (n : Nat) : ∀ p : Bytes.Store, cname n (cstring (strncpy n p)) = cname n p := by
  induction n with
  | zero => intro p; rfl
  | succ n ih =>
    intro p
    rw [cname,cname,strncpy]
    by_cases none : p 0 = 0
    · simp [none,cstring,List.replicate_succ]
    · rw [if_neg none,cstring_cons,ih]
      simp [cstring,none]

def entryAt (m : Bytes.Store) (k : Nat) : Option (List UInt8 × Nat) :=
  if ld16 m (16*k) = 0 then none else some (cname 14 fun t => m (16*k+2+t),ld16 m (16*k))

theorem entryAt_congr {m n : Bytes.Store} (same : ∀ t < 16, m (16*k+t) = n (16*l+t)) : entryAt m k = entryAt n l := by
  have number : ld16 m (16*k) = ld16 n (16*l) := ld16_congr fun t small => same t (by omega)
  have name : cname 14 (fun t => m (16*k+2+t)) = cname 14 fun t => n (16*l+2+t) :=
    cname_congr 14 fun t small => by rw [Nat.add_assoc,Nat.add_assoc]; exact same (2+t) (by omega)
  rw [entryAt,entryAt,number,name]

def dirTable (disk : Disk) (d : Dinode) : Table (List UInt8) Nat where
  count := d.size/16
  entry k := if k < d.size/16 then entryAt (byteAt disk d) k else none

section
variable {L : Layout} {s next : State} {dn after : Nat → Dinode} {E : Stop → State → Prop}

structure Readable (L : Layout) (s : State) (dp : Nat) : Prop where
  zoned : Zoned L (L.view s.log) (s.icache dp).din
  idle : s.held = []
  kind : (s.icache dp).din.type = 1
  backed : Backed (L.view s.log) (s.icache dp).din
  whole : (s.icache dp).din.size % 16 = 0

theorem sat_readEntry (dir : Readable L s dp) (inside : k < (s.icache dp).din.size/16) (f : List UInt8 → M α) (Q : α → State → Prop)
    (rest : ∀ de, (dirTable (L.view s.log) (s.icache dp).din).entry k = entryAt (cstring de) 0 → Sat (f de) s E Q) :
    Sat (readEntry dp (16*k) >>= f) s E Q := by
  have top := dir.backed.size
  have run : Sat (readi dp (16*k) 16) s E fun r next => next = s ∧
      r = some ((List.range 16).map fun t => byteAt (L.view s.log) (s.icache dp).din (16*k+t)) := by
    refine (readi_spec dir.zoned dir.idle (by rw [dir.kind]; decide) dir.backed (by omega) (by decide)).post ?_
    rintro r _ ⟨rfl,eq⟩
    rw [if_neg (by omega),Nat.min_eq_left (by omega)] at eq
    exact ⟨rfl,eq⟩
  rw [readEntry,sat_bind,sat_bind]
  refine run.post ?_
  rintro _ _ ⟨rfl,rfl⟩
  dsimp only
  rw [if_neg (by simp),sat_pure]
  refine rest _ ((if_pos inside).trans (entryAt_congr fun t small => ?_))
  simp [cstring,small]

theorem dirlookupFrom_spec (dir : Readable L s dp) (full : (∀ x < 50, (s.icache x).ref ≠ 0) → E (.panic .igetNoInodes) s)
    (name : Bytes.Store) (n : Nat) :
    ∀ j, j+n = (s.icache dp).din.size/16 →
      Sat (dirlookupFrom dp name ((List.range' j n).map fun k => 16*k)) s E fun r next =>
        match (List.range' j n).find? ((dirTable (L.view s.log) (s.icache dp).din).hit (cname 14 name)) with
        | none => r = none ∧ next = s
        | some k => ∃ ip v, r = some (ip,16*k) ∧ ip < 50 ∧
            (dirTable (L.view s.log) (s.icache dp).din).entry k = some (cname 14 name,v) ∧ Fresh s ip v ∧ Got s next ip v := by
  induction n with
  | zero => intro j _; exact .done ⟨rfl,rfl⟩
  | succ n ih =>
    intro j last
    rw [List.range'_succ,List.map_cons,dirlookupFrom]
    refine sat_readEntry dir (by omega) _ _ fun de same => ?_
    rw [List.find?_cons]
    by_cases empty : ld16 (cstring de) 0 = 0
    · have miss : (dirTable (L.view s.log) (s.icache dp).din).hit (cname 14 name) j = false := by
        simp [Table.hit,same,entryAt,empty]
      rw [if_pos empty,miss]
      exact ih (j+1) (by omega)
    have here : (dirTable (L.view s.log) (s.icache dp).din).entry j = some (cname 14 (fun t => cstring de (2+t)),ld16 (cstring de) 0) := by
      rw [same,entryAt,if_neg empty]
    rw [if_neg empty]
    by_cases equal : namecmp name (fun t => cstring de (2+t)) = true
    · have name_ := (strncmp_cname 14 _ _).mp equal
      have hit : (dirTable (L.view s.log) (s.icache dp).din).hit (cname 14 name) j = true := by simp [Table.hit,here,name_]
      rw [if_pos equal,hit]
      refine (iget_spec full).bind ?_
      rintro ip mid ⟨small,fresh,got⟩
      exact .done ⟨ip,_,rfl,small,by rw [here,name_],fresh,got⟩
    · have name_ : cname 14 (fun t => cstring de (2+t)) ≠ cname 14 name := fun eq => equal ((strncmp_cname 14 _ _).mpr eq.symm)
      have miss : (dirTable (L.view s.log) (s.icache dp).din).hit (cname 14 name) j = false := by simp [Table.hit,here,name_]
      rw [if_neg equal,miss]
      exact ih (j+1) (by omega)

theorem offsets_eq (whole : size % 16 = 0) : offsets size = (List.range' 0 (size/16)).map fun k => 16*k := by
  rw [offsets,show (size+15)/16 = size/16 by omega,List.range_eq_range']

theorem dirlookup_spec (dir : Readable L s dp) (full : (∀ x < 50, (s.icache x).ref ≠ 0) → E (.panic .igetNoInodes) s) (name : Bytes.Store) :
    Sat (dirlookup dp name) s E fun r next =>
      match (dirTable (L.view s.log) (s.icache dp).din).find (cname 14 name) with
      | none => r = none ∧ next = s
      | some k => ∃ ip v, r = some (ip,16*k) ∧ ip < 50 ∧
          (dirTable (L.view s.log) (s.icache dp).din).entry k = some (cname 14 name,v) ∧ Fresh s ip v ∧ Got s next ip v := by
  rw [dirlookup,sat_inode,if_neg (by simp [dir.kind]),offsets_eq dir.whole,Table.find,List.range_eq_range']
  exact dirlookupFrom_spec dir full name _ 0 (by omega)

theorem emptyFrom_spec (dir : Readable L s dp) (n : Nat) : ∀ j, j+n = (s.icache dp).din.size/16 →
    Sat (emptyFrom dp (s.icache dp).din.size ((List.range' j n).map fun k => 16*k)) s E fun off next => next = s ∧
      off = 16*((List.range' j n).find? fun k => ((dirTable (L.view s.log) (s.icache dp).din).entry k).isNone).getD ((s.icache dp).din.size/16) := by
  have whole := dir.whole
  induction n with
  | zero =>
    intro j _
    refine .done ⟨rfl,?_⟩
    simp
    omega
  | succ n ih =>
    intro j last
    rw [List.range'_succ,List.map_cons,emptyFrom]
    refine sat_readEntry dir (by omega) _ _ fun de same => ?_
    rw [List.find?_cons,same]
    by_cases empty : ld16 (cstring de) 0 = 0
    · simp [entryAt,empty]
    · simp only [entryAt,empty,if_false,Option.isNone_some]
      exact ih (j+1) (by omega)

theorem entryAt_new (name : Bytes.Store) (some : inum ≠ 0) (short : inum < 65536) :
    entryAt (entryBytes inum (strncpy 14 name)) 0 = Option.some (cname 14 name,inum) := by
  have number : ld16 (entryBytes inum (strncpy 14 name)) 0 = inum := by
    rw [ld16_bytes fun t small => ?_]
    · exact Nat.mod_eq_of_lt short
    · simp [entryBytes,small]
  have same : cname 14 (fun t => entryBytes inum (strncpy 14 name) (2+t)) = cname 14 (cstring (strncpy 14 name)) :=
    cname_congr 14 fun t small => by rw [entryBytes,if_neg (by omega),Nat.add_sub_cancel_left,cstring]
  unfold entryAt
  rw [Nat.mul_zero,number,if_neg some]
  rw [same,cname_strncpy]

theorem dirTable_written (written : Written L s next dn after dp i src (16*k) 16) (whole : (dn i).size % 16 = 0) (inside : k ≤ (dn i).size/16) :
    dirTable (L.view next.log) (after i) = (dirTable (L.view s.log) (dn i)).put k (entryAt src 0) := by
  have size : (after i).size = max (dn i).size (16*k+16) := by
    obtain ⟨log,addrs,rfl⟩ := written.state
    rw [written.at]
    simp [Dinode.sized]
  have count : (after i).size/16 = max ((dn i).size/16) (k+1) := by omega
  unfold dirTable Table.put
  simp only [count,Table.mk.injEq,true_and]
  funext j
  rw [Function.update_apply]
  by_cases here : j = k
  · subst here
    rw [if_pos (by omega),if_pos rfl]
    refine entryAt_congr fun t small => ?_
    rw [written.bytes _ (by omega),if_pos (by omega)]
    congr 1
    omega
  rw [if_neg here]
  by_cases old : j < (dn i).size/16
  · rw [if_pos (by omega),if_pos old]
    refine entryAt_congr fun t small => ?_
    rw [written.bytes _ (by omega),if_neg (by omega)]
  · rw [if_neg (by omega),if_neg old]

theorem entry_pieces (k : Nat) : (Chunks.chunks 512 (16*k) 16).length = 1 := by
  rw [Chunks.chunks_step (by decide) (by decide),show min 16 (512 - 16*k%512) = 16 by omega,Nat.sub_self,Chunks.chunks_zero]
  rfl

structure Edited (L : Layout) (s next : State) (dn after : Nat → Dinode) (dp i : Nat) (table : Table (List UInt8) Nat) : Prop where
  files : Files L next after
  framed : Framed s next dp (after i)
  type : (after i).type = (dn i).type
  size : (after i).size = 16*table.count
  table : dirTable (L.view next.log) (after i) = table

theorem Got.again (got : Got s next ip v) (live : 0 < (s.icache dp).ref) (f : Unit → M α) (Q : α → State → Prop)
    (rest : ∀ last, last.log = s.log → Framed s last dp (s.icache dp).din → Sat (f ()) last E Q) : Sat (iput ip >>= f) next E Q := by
  have same : (next.icache dp).din = (s.icache dp).din := by
    by_cases here : dp = ip
    · subst here
      rcases got.slot with ⟨_,eq⟩ | ⟨_,eq⟩ <;> rw [eq]
    · rw [got.other here]
  have state : next = { next with log := next.log, icache := Function.update next.icache dp { next.icache dp with din := (next.icache dp).din } } := by
    rw [Function.update_eq_self]
  refine sat_iput _ _ (got.stays live state) (rest _ ?_ ?_)
  · rw [got.state]
  · rw [← same]
    exact got.framed live state

structure Locked (L : Layout) (s : State) (dn : Nat → Dinode) (dp i : Nat) : Prop where
  files : Files L s dn
  busy : s.log.busy = true
  held : s.held = []
  slot : Slotted L s dn dp i
  live : 0 < (s.icache dp).ref
  kind : (dn i).type = 1
  whole : (dn i).size % 16 = 0

theorem Locked.readable (locked : Locked L s dn dp i) : Readable L s dp := by
  have same := locked.slot.din
  have zoned := locked.files.owned.zoned i
  have backed := locked.files.backed i
  have kind := locked.kind
  have whole := locked.whole
  rw [same] at zoned backed kind whole
  exact ⟨zoned,locked.held,kind,backed,whole⟩

def table (L : Layout) (s : State) (dn : Nat → Dinode) (i : Nat) : Table (List UInt8) Nat := dirTable (L.view s.log) (dn i)

section
variable (locked : Locked L s dn dp i)
include locked

theorem Locked.count : (dn i).size = 16*(table L s dn i).count := by
  have whole := locked.whole
  show _ = 16*((dn i).size/16)
  omega

theorem Locked.unchanged (log : next.log = s.log) (framed : Framed s next dp (s.icache dp).din) :
    Edited L s next dn dn dp i (table L s dn i) := by
  refine ⟨locked.files.moved (by rw [log]; exact locked.files.calm.sane) (framed.held.trans locked.held) (by rw [log]),?_,rfl,locked.count,by rw [log]; rfl⟩
  rw [locked.slot.din]
  exact framed

theorem Locked.writes (room : LogRoom L s.log (16*k) 16) (inside : k ≤ (table L s dn i).count) (top : 16*k+16 ≤ 71680)
    (enough : need (max (dn i).size (16*k+16)) ≤ (spare L (L.view s.log)).card + need (dn i).size) :
    Sat (writei dp src (16*k) 16) s (fun _ _ => False) fun r next => r = some 16 ∧ ∃ after, Written L s next dn after dp i src (16*k) 16 := by
  have count := locked.count
  exact writei_spec locked.files locked.busy locked.slot locked.held (by rw [locked.kind]; decide) (by omega) top enough room.jammed

theorem Locked.got (got : Got s next ip v) : Locked L next dn dp i := by
  have log : next.log = s.log := by rw [got.state]
  have held : next.held = s.held := by rw [got.state]
  have slot : (next.icache dp).inum = (s.icache dp).inum ∧ (next.icache dp).din = (s.icache dp).din ∧ 0 < (next.icache dp).ref := by
    by_cases here : dp = ip
    · subst here
      rcases got.slot with ⟨_,eq⟩ | ⟨free,_⟩
      · rw [eq]
        exact ⟨rfl,rfl,Nat.succ_pos _⟩
      · exact absurd locked.live (by omega)
    · rw [got.other here]
      exact ⟨rfl,rfl,locked.live⟩
  refine ⟨locked.files.moved (by rw [log]; exact locked.files.calm.sane) (held.trans locked.held) (by rw [log]),by rw [log]; exact locked.busy,held.trans locked.held,
    ⟨slot.1.trans locked.slot.inum,locked.slot.small,locked.slot.din.trans slot.2.1.symm⟩,slot.2.2,locked.kind,locked.whole⟩

theorem Locked.wrote (written : Written L s next dn after dp i src (16*k) 16) (inside : k ≤ (table L s dn i).count)
    (files : Files L last after) (view : last.log = next.log) (framed : Framed t last dp (after i)) :
    Edited L t last dn after dp i ((table L s dn i).put k (entryAt src 0)) := by
  have inside : k ≤ (dn i).size/16 := inside
  have whole := locked.whole
  have shape : (after i).type = (dn i).type ∧ (after i).size = max (dn i).size (16*k+16) := by
    obtain ⟨log,addrs,rfl⟩ := written.state
    rw [written.at,locked.slot.din]
    simp [Dinode.sized,withAddrs]
  refine ⟨files,framed,shape.1,?_,by rw [view]; exact dirTable_written written whole inside⟩
  show _ = 16*max ((dn i).size/16) (k+1)
  omega

end

theorem Written.framed (written : Written L s next dn after dp i src off n) : Framed s next dp (after i) := by
  have mine := written.at
  obtain ⟨log,addrs,rfl⟩ := written.state
  refine ⟨fun x => ?_,fun x _ => ?_,rfl,rfl,rfl,rfl⟩
  · by_cases here : x = dp
    · subst here; simp
    · simp [here]
  · by_cases here : x = dp
    · subst here
      simp [mine]
    · simp [here]

theorem dirlink_spec (locked : Locked L s dn dp i) (spot : ∃ x < 50, (s.icache x).ref = 0) (some : inum ≠ 0) (short : inum < 65536)
    (log : (L.size+4095)/4096 + 3 < min LOGSIZE (L.nlog-1)) (fresh : s.log.lh = [])
    (room : (table L s dn i).get (cname 14 name) = none → 16*(table L s dn i).vacant+16 ≤ 71680 ∧
      need (max (dn i).size (16*(table L s dn i).vacant+16)) ≤ (spare L (L.view s.log)).card + need (dn i).size) :
    Sat (dirlink dp name inum) s (fun _ _ => False) fun r next => ∃ after,
      if (table L s dn i).get (cname 14 name) = none then
        r = true ∧ Edited L s next dn after dp i ((table L s dn i).put (table L s dn i).vacant (Option.some (cname 14 name,inum)))
      else r = false ∧ next.log = s.log ∧ Edited L s next dn after dp i (table L s dn i) := by
  have dir := locked.readable
  have same : dirTable (L.view s.log) (s.icache dp).din = table L s dn i := by rw [table,locked.slot.din]
  refine (dirlookup_spec dir (not_full spot) name).bind ?_
  rw [same]
  intro r mid found
  cases here : (table L s dn i).find (cname 14 name) with
  | some k =>
    rw [here] at found
    obtain ⟨ip,v,rfl,_,_,_,got⟩ := found
    have present : (table L s dn i).get (cname 14 name) ≠ none := fun none => by
      rw [Table.get_none.mp none] at here
      cases here
    refine got.again locked.live _ _ fun last log framed => ?_
    exact .done ⟨dn,by rw [if_neg present]; exact ⟨rfl,log,locked.unchanged log framed⟩⟩
  | none =>
    rw [here] at found
    obtain ⟨rfl,stays⟩ := found
    rw [stays]
    have missing := Table.get_none.mpr here
    obtain ⟨top,enough⟩ := room missing
    have whole := dir.whole
    rw [sat_inode,offsets_eq whole,show 16*(((s.icache dp).din.size+15)/16) = (s.icache dp).din.size by omega]
    refine (emptyFrom_spec dir _ 0 (Nat.zero_add _)).bind ?_
    rintro off last ⟨stays,at_off⟩
    rw [stays]
    have vacant : off = 16*(table L s dn i).vacant := by
      have count : (table L s dn i).count = (s.icache dp).din.size/16 := by rw [← same]; rfl
      rw [at_off,same,← List.range_eq_range',Table.vacant,count]
    subst vacant
    have least : (table L s dn i).vacant ≤ (table L s dn i).count := by
      rcases Table.vacant_cases (table L s dn i) with last | ⟨inside,_⟩ <;> omega
    have logs : LogRoom L s.log (16*(table L s dn i).vacant) 16 := by
      unfold LogRoom
      rw [entry_pieces,fresh,List.length_nil]
      omega
    refine (locked.writes logs least top enough).bind ?_
    rintro _ next ⟨rfl,after,written⟩
    rw [if_neg (fun other => other rfl),sat_pure]
    have edited := locked.wrote written least written.files rfl written.framed
    rw [entryAt_new name some short] at edited
    exact ⟨after,by rw [if_pos missing]; exact ⟨rfl,edited⟩⟩

-- sys_unlink: the entry becomes zeros. The inode is let go without the last part of the call.
def removeEntry (dp : Nat) (name : Bytes.Store) : M Bool := do
  match ← dirlookup dp name with
  | none => return false
  | some (ip,off) =>
    let r ← writei dp (fun _ => 0) off 16
    if r ≠ some 16 then panic .unlinkWritei
    else
      iput ip
      return true

theorem removeEntry_spec (locked : Locked L s dn dp i) (spot : ∃ x < 50, (s.icache x).ref = 0)
    (log : (L.size+4095)/4096 + 3 < min LOGSIZE (L.nlog-1)) (fresh : s.log.lh = []) :
    Sat (removeEntry dp name) s (fun _ _ => False) fun r next => ∃ after,
      match (table L s dn i).find (cname 14 name) with
      | none => r = false ∧ next.log = s.log ∧ Edited L s next dn after dp i (table L s dn i)
      | some k => r = true ∧ Edited L s next dn after dp i ((table L s dn i).put k none) := by
  have dir := locked.readable
  have same : dirTable (L.view s.log) (s.icache dp).din = table L s dn i := by rw [table,locked.slot.din]
  refine (dirlookup_spec dir (not_full spot) name).bind ?_
  rw [same]
  intro r mid found
  cases here : (table L s dn i).find (cname 14 name) with
  | none =>
    rw [here] at found
    obtain ⟨rfl,stays⟩ := found
    rw [stays,sat_pure]
    refine ⟨dn,rfl,rfl,locked.unchanged rfl ⟨fun _ => rfl,fun x _ => ?_,rfl,rfl,rfl,rfl⟩⟩
    split
    · rename_i dir
      rw [dir]
    · rfl
  | some k =>
    rw [here] at found
    obtain ⟨ip,v,rfl,_,_,_,got⟩ := found
    have inside := (Table.find_some here).1
    have again := locked.got got
    have view : L.view mid.log = L.view s.log := by rw [got.state]
    have same : table L mid dn i = table L s dn i := by rw [table,view]; rfl
    have size := locked.count
    have most := (locked.files.backed i).size
    have logs : LogRoom L mid.log (16*k) 16 := by
      unfold LogRoom
      rw [entry_pieces,show mid.log = s.log by rw [got.state],fresh,List.length_nil]
      omega
    refine (again.writes logs (by rw [same]; omega) (by omega) ?_).bind ?_
    · rw [Nat.max_eq_left (by omega)]
      omega
    rintro _ next ⟨rfl,after,written⟩
    have mine := written.at
    obtain ⟨log',addrs,state⟩ := written.state
    refine sat_iput _ _ (got.stays locked.live state) ?_
    have framed := got.framed locked.live state
    rw [sat_pure]
    have din : after i = (withAddrs (mid.icache dp).din addrs).sized (max (dn i).size (16*k+16)) := by
      rw [mine,state]
      simp
    rw [← din] at framed
    refine ⟨after,rfl,?_⟩
    rw [← same]
    exact again.wrote written (by rw [same]; omega) (written.files.moved written.files.calm.sane (framed.held.trans locked.held) rfl) rfl framed

def locking (dp : Nat) (m : M α) : M α := do
  beginTrans
  ilock dp
  let r ← m
  iunlock dp
  commitTrans
  return r

def entries (L : Layout) (s : State) (i : Nat) : Table (List UInt8) Nat := dirTable (L.view s.log) (dinodeAt (L.view s.log) i)

theorem entries_eq (files : Files L s dn) (small : i < L.ninodes) : entries L s i = table L s dn i := by
  rw [entries,files.copies i small]
  rfl

-- Between two operations on directory i in slot dp: no name stands twice, and the inode cache has
-- a slot to spare.
structure Directory (L : Layout) (s : State) (dn : Nat → Dinode) (dp i : Nat) : Prop where
  quiet : Quiet L s dn
  cached : Cached L s dn dp i
  kind : (dn i).type = 1
  whole : (dn i).size % 16 = 0
  unique : (entries L s i).Unique
  spot : ∃ x < 50, (s.icache x).ref = 0

theorem Directory.locked (dir : Directory L s dn dp i) : Locked L (s.opened dp (dn i)) dn dp i :=
  ⟨dir.quiet.opened _ _,rfl,dir.quiet.held,dir.cached.opened,by simpa [State.opened,State.locked] using dir.cached.ref,dir.kind,dir.whole⟩

theorem opened_ref (s : State) (dp : Nat) (d : Dinode) (x : Nat) : ((s.opened dp d).icache x).ref = (s.icache x).ref := by
  by_cases here : x = dp
  · subst here
    simp [State.opened,State.locked]
  · simp [State.opened,State.locked,here]

theorem locking_rule {Q : α → Disk → Table (List UInt8) Nat → Prop} (dir : Directory L s dn dp i)
    (op : Sat m (s.opened dp (dn i)) (fun _ _ => False) fun r mid => ∃ after table, Edited L (s.opened dp (dn i)) mid dn after dp i table ∧
      table.Unique ∧ Q r (L.view mid.log) table) :
    Sat (locking dp m) s (fun _ _ => False) fun r next => (∃ after, Directory L next after dp i) ∧ Q r (L.view next.log) (entries L next i) := by
  have quiet := dir.quiet
  have cached := dir.cached
  refine sat_begin _ _ quiet.idle ?_
  refine sat_ilock _ _ (quiet.files.moved quiet.files.calm.sane.begin quiet.held rfl) quiet.held
    ⟨cached.inum,cached.small,cached.ref,cached.unlocked,cached.copy,cached.kind⟩ ?_
  refine op.bind ?_
  rintro r mid ⟨after,table,edited,unique,holds⟩
  have framed := edited.framed
  have slot := framed.live dp dir.locked.live
  refine sat_iunlock _ _ (by rw [framed.ref]; exact dir.locked.live) (by rw [slot]; simp [State.opened,State.locked]) ?_
  refine sat_commit _ _ edited.files.calm.sane fun log sane idle view => ?_
  rw [sat_pure]
  have view : L.view log = L.view mid.log := view
  have held : mid.held = [] := framed.held.trans quiet.held
  have files : Files L ({ mid with
      log := log, commits := mid.log.lh :: mid.commits, icache := Function.update mid.icache dp { mid.icache dp with busy := false } } : State) after :=
    edited.files.moved sane held view
  have same : entries L ({ mid with
      log := log, commits := mid.log.lh :: mid.commits, icache := Function.update mid.icache dp { mid.icache dp with busy := false } } : State) i = table := by
    rw [entries_eq files cached.small,← edited.table,← view]
    rfl
  refine ⟨⟨after,⟨files,idle,held⟩,?_,edited.type.trans dir.kind,by rw [edited.size]; omega,by rw [same]; exact unique,?_⟩,by rw [same]; exact view ▸ holds⟩
  · refine ⟨?_,cached.small,?_,?_,fun _ => ?_,by rw [edited.type,dir.kind]; decide⟩
    · simpa [slot] using dir.locked.slot.inum
    · simpa [slot] using dir.locked.live
    · simp
    · simp [slot]
  · obtain ⟨x,small,zero⟩ := dir.spot
    have ref : (mid.icache x).ref = 0 := by rw [framed.ref,opened_ref,zero]
    refine ⟨x,small,?_⟩
    by_cases here : x = dp
    · subst here
      simpa using ref
    · simpa [here] using ref

abbrev Names := List UInt8 → Option Nat

inductive DirOp where
  | link (name : Bytes.Store) (inum : Nat)
  | remove (name : Bytes.Store)

namespace DirOp

def run (dp : Nat) : DirOp → M Bool
  | .link name inum => locking dp (dirlink dp name inum)
  | .remove name => locking dp (removeEntry dp name)

def apply (names : Names) : DirOp → Names
  | .link name inum => if names (cname 14 name) = none then Function.update names (cname 14 name) (some inum) else names
  | .remove name => Function.update names (cname 14 name) none

def succeeds (names : Names) : DirOp → Bool
  | .link name _ => (names (cname 14 name)).isNone
  | .remove name => (names (cname 14 name)).isSome

-- A new name needs a slot below the maximum file size and, for a slot in a new block, free blocks.
def Fits (L : Layout) (i : Nat) (s : State) : DirOp → Prop
  | .link name inum => inum ≠ 0 ∧ inum < 65536 ∧ ((entries L s i).get (cname 14 name) = none →
      16*(entries L s i).vacant+16 ≤ 71680 ∧ need (max (dinodeAt (L.view s.log) i).size (16*(entries L s i).vacant+16)) ≤
        (spare L (L.view s.log)).card + need (dinodeAt (L.view s.log) i).size)
  | .remove _ => True

end DirOp

section
variable (dir : Directory L s dn dp i) (wide : (L.size+4095)/4096 + 3 < min LOGSIZE (L.nlog-1))
include dir

theorem Directory.table : table L (s.opened dp (dn i)) dn i = entries L s i := (entries_eq dir.quiet.files dir.cached.small).symm

theorem Directory.fresh : (s.opened dp (dn i)).log.lh = [] := dir.quiet.files.calm.sane.idle dir.quiet.idle

theorem Directory.spare : ∃ x < 50, ((s.opened dp (dn i)).icache x).ref = 0 := by
  obtain ⟨x,small,zero⟩ := dir.spot
  exact ⟨x,small,by rw [opened_ref,zero]⟩

include wide

theorem Directory.op (op : DirOp) (fits : op.Fits L i s) :
    Sat (op.run dp) s (fun _ _ => False) fun r next => (∃ after, Directory L next after dp i) ∧ r = op.succeeds (entries L s i).get ∧
      (entries L next i).get = op.apply (entries L s i).get ∧ (r = false → L.view next.log = L.view s.log) := by
  have unique := dir.unique
  cases op with
  | link name inum =>
    obtain ⟨some,short,room⟩ := fits
    rw [dir.quiet.files.copies i dir.cached.small] at room
    rw [← dir.table] at unique room ⊢
    refine locking_rule (Q := fun r view t => r = DirOp.succeeds _ (.link name inum) ∧ t.get = DirOp.apply _ (.link name inum) ∧
      (r = false → view = L.view s.log)) dir ?_
    refine (dirlink_spec dir.locked dir.spare some short wide dir.fresh room).post ?_
    rintro r mid ⟨after,step⟩
    split at step
    · rename_i missing
      obtain ⟨rfl,edited⟩ := step
      refine ⟨after,_,edited,unique.insert missing,by simp [DirOp.succeeds,missing],?_,fun no => (by cases no)⟩
      rw [Table.get_insert unique missing,DirOp.apply,if_pos missing]
    rename_i present
    obtain ⟨rfl,log,edited⟩ := step
    refine ⟨after,_,edited,unique,?_,by rw [DirOp.apply,if_neg present],fun _ => by rw [log]; rfl⟩
    rw [DirOp.succeeds]
    cases here : (Core.table L (s.opened dp (dn i)) dn i).get (cname 14 name) with
    | none => exact absurd here present
    | some v => rfl
  | remove name =>
    rw [← dir.table] at unique ⊢
    refine locking_rule (Q := fun r view t => r = DirOp.succeeds _ (.remove name) ∧ t.get = DirOp.apply _ (.remove name) ∧
      (r = false → view = L.view s.log)) dir ?_
    refine (removeEntry_spec dir.locked dir.spare wide dir.fresh).post ?_
    rintro r mid ⟨after,step⟩
    split at step
    · rename_i missing
      obtain ⟨rfl,log,edited⟩ := step
      have none := Table.get_none.mpr missing
      refine ⟨after,_,edited,unique,by simp [DirOp.succeeds,none],?_,fun _ => by rw [log]; rfl⟩
      rw [DirOp.apply,← none,Function.update_eq_self]
    rename_i k found
    obtain ⟨rfl,edited⟩ := step
    obtain ⟨inside,v,_⟩ := Table.find_some found
    refine ⟨after,_,edited,unique.erase inside,?_,Table.get_erase unique found,fun no => (by cases no)⟩
    rw [DirOp.succeeds]
    cases here : (Core.table L (s.opened dp (dn i)) dn i).get (cname 14 name) with
    | none =>
      rw [Table.get_none.mp here] at found
      cases found
    | some v => rfl

omit wide

def lookup (dp : Nat) (name : Bytes.Store) : M (Option (Nat × Nat)) := do
  ilock dp
  dirlookup dp name

-- The inode number that the map has, in the slot returned, and the offset of its entry.
def Finds (L : Layout) (s next : State) (i : Nat) (key : List UInt8) (r : Option (Nat × Nat)) : Prop :=
  match (entries L s i).get key with
  | none => r = none
  | some v => ∃ ip k, r = some (ip,16*k) ∧ (entries L s i).entry k = some (key,v) ∧ (next.icache ip).inum = v

theorem Directory.lookup (name : Bytes.Store) :
    Sat (lookup dp name) s (fun _ _ => False) fun r next => Finds L s next i (cname 14 name) r := by
  have din : ((s.locked dp (dn i)).icache dp).din = dn i := by simp [State.locked]
  have files := dir.quiet.files
  have readable : Readable L (s.locked dp (dn i)) dp := by
    refine ⟨?_,dir.quiet.held,?_,?_,?_⟩
    · rw [din]; exact files.owned.zoned i
    · rw [din]; exact dir.kind
    · rw [din]; exact files.backed i
    · rw [din]; exact dir.whole
  have spot : ∃ x < 50, ((s.locked dp (dn i)).icache x).ref = 0 := dir.spare
  have same : dirTable (L.view (s.locked dp (dn i)).log) ((s.locked dp (dn i)).icache dp).din = entries L s i := by
    rw [din]
    exact dir.table
  refine sat_ilock _ _ files dir.quiet.held dir.cached ?_
  refine (dirlookup_spec readable (not_full spot) name).post ?_
  rw [same]
  intro r next found
  unfold Finds Table.get
  cases here : (entries L s i).find (cname 14 name) with
  | none =>
    rw [here] at found
    exact found.1
  | some k =>
    rw [here] at found
    obtain ⟨ip,v,rfl,_,entry,_,got⟩ := found
    rw [Option.bind_some,entry]
    exact ⟨ip,k,rfl,entry,got.inum⟩

end
end

def DirStep (dp : Nat) (s : State) (op : DirOp) (next : State) : Prop := ∃ r, op.run dp s = (.ok r,next)

theorem directories_refine_maps {L : Layout} (wide : (L.size+4095)/4096 + 3 < min LOGSIZE (L.nlog-1)) (dir : Directory L s dn dp i)
    (run : Runs.Run (· = s) (Runs.Only (DirOp.Fits L i) (DirStep dp)) ops last) :
    (∃ after, Directory L last after dp i) ∧ (entries L last i).get = ops.foldr (fun op names => op.apply names) (entries L s i).get ∧
    (∀ op : DirOp, op.Fits L i last → ∃ next, op.run dp last = (.ok (op.succeeds (entries L last i).get),next) ∧
      (op.succeeds (entries L last i).get = false → L.view next.log = L.view last.log)) ∧
    ∀ name, ∃ r next, lookup dp name last = (.ok r,next) ∧ Finds L last next i (cname 14 name) r := by
  have kept : (∃ after, Directory L last after dp i) ∧ (entries L last i).get = ops.foldr (fun op names => op.apply names) (entries L s i).get := by
    refine run.traced (I := fun ops t => (∃ after, Directory L t after dp i) ∧
      (entries L t i).get = ops.foldr (fun op names => op.apply names) (entries L s i).get) ?_ ?_
    · rintro t rfl
      exact ⟨⟨dn,dir⟩,rfl⟩
    · rintro ops t op next ⟨⟨after,here⟩,same⟩ ⟨fits,r,ran⟩
      obtain ⟨again,-,moved,-⟩ := (here.op wide op fits).returned ran
      exact ⟨again,by rw [moved,same]; rfl⟩
  obtain ⟨⟨after,here⟩,same⟩ := kept
  refine ⟨⟨after,here⟩,same,fun op fits => ?_,fun name => ?_⟩
  · obtain ⟨r,next,ran,-,rfl,-,still⟩ := (here.op wide op fits).returns
    exact ⟨next,ran,still⟩
  · exact (here.lookup name).returns

def solidDir (data : Block) : State := (mount (solidLayout 1 (by decide)) (solidDisk 1 1 fun _ => data)).openFile 1 0

theorem solidDir_directory (data : Block) (unique : (entries (solidLayout 1 (by decide)) (solidDir data) 1).Unique) :
    Directory (solidLayout 1 (by decide)) (solidDir data) (solidInodes 1 1) 0 1 :=
  ⟨(solid_quiet (by decide) (by decide) _).openFile 1 0,⟨rfl,by decide,Nat.one_pos,rfl,fun valid => (by cases valid),by decide⟩,rfl,rfl,unique,1,by decide,rfl⟩

def letter (c : UInt8) : Bytes.Store := fun t => if t = 0 then c else 0

theorem maps_one_name : ∃ last, Runs.Run (· = solidDir .zero) (Runs.Only (DirOp.Fits (solidLayout 1 (by decide)) 1) (DirStep 0)) [.link (letter 97) 7] last ∧
    (entries (solidLayout 1 (by decide)) last 1).get [97] = some 7 := by
  have empty : ∀ k < 32, (entries (solidLayout 1 (by decide)) (solidDir .zero) 1).entry k = none := by decide +kernel
  have dir := solidDir_directory .zero fun j k key v w inside _ first _ => by rw [empty j inside] at first; cases first
  have fits : DirOp.Fits (solidLayout 1 (by decide)) 1 (solidDir .zero) (.link (letter 97) 7) := by
    refine ⟨by decide,by decide,fun _ => ?_⟩
    decide +kernel
  obtain ⟨r,last,ran,-⟩ := (dir.op (by decide) _ fits).returns
  have run : Runs.Run (· = solidDir .zero) (Runs.Only (DirOp.Fits (solidLayout 1 (by decide)) 1) (DirStep 0)) [.link (letter 97) 7] last :=
    .step (.start rfl) ⟨fits,r,ran⟩
  refine ⟨last,run,?_⟩
  have none : (entries (solidLayout 1 (by decide)) (solidDir .zero) 1).get [97] = Option.none := by
    refine Table.get_none.mpr (List.find?_eq_none.mpr fun k member => ?_)
    rw [Table.hit,empty k (List.mem_range.mp member)]
    decide
  have key : cname 14 (letter 97) = [97] := by decide
  rw [(directories_refine_maps (by decide) dir run).2.1]
  simp [DirOp.apply,key,none]

def fullBlock : Block := fun p => if p.val%16 = 0 then 1 else if p.val%16 = 2 then UInt8.ofNat (p.val/16+1) else 0

-- On a full disk balloc hands out the header of the log, and the new entry goes with the commit.
theorem linked_and_lost : Directory (solidLayout 1 (by decide)) (solidDir fullBlock) (solidInodes 1 1) 0 1 ∧
    ∃ next last, DirOp.run 0 (.link (letter 126) 7) (solidDir fullBlock) = (.ok true,next) ∧ lookup 0 (letter 126) next = (.ok none,last) := by
  have names : ∀ k < 32, (entries (solidLayout 1 (by decide)) (solidDir fullBlock) 1).entry k = some ([UInt8.ofNat (k+1)],1) := by decide +kernel
  refine ⟨solidDir_directory fullBlock fun j k key v w one two first second => ?_,?_⟩
  · have one : j < 32 := one
    have two : k < 32 := two
    rw [names j one,Option.some.injEq,Prod.mk.injEq] at first
    rw [names k two,Option.some.injEq,Prod.mk.injEq] at second
    have same := congrArg UInt8.toNat (List.cons.inj (first.1.trans second.1.symm)).1
    rw [UInt8.toNat_ofNat_of_lt' (show j+1 < 256 by omega),UInt8.toNat_ofNat_of_lt' (show k+1 < 256 by omega)] at same
    omega
  · have outcome : (match DirOp.run 0 (.link (letter 126) 7) (solidDir fullBlock) with
        | (.ok true,next) => match lookup 0 (letter 126) next with
          | (.ok none,_) => true
          | _ => false
        | _ => false) = true := by decide +kernel
    split at outcome
    · rename_i next linked
      split at outcome
      · rename_i last lost
        exact ⟨next,last,linked,lost⟩
      · cases outcome
    · cases outcome

end Xv6.Fs.Core
