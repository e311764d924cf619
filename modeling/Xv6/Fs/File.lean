import Xv6.Fs.Mount

namespace Xv6.Fs.Core
open Bytes Exec LogCrash

-- file.c: a write is cut into transactions.

def file (f : Nat) : M File := do
  let s ← Prog.get
  return s.ftable f

def setFile (f : Nat) (g : File → File) : M Unit :=
  Prog.modify fun s => { s with ftable := Function.update s.ftable f (g (s.ftable f)) }

-- if(r > 0) f->off += r;
def advance (f : Nat) : Option Nat → M Unit
  | some (r+1) => setFile f fun x => { x with off := (x.off+(r+1)) % 4294967296 }
  | _ => return ()

def writeTrans (f : Nat) (addr : Bytes.Store) (n1 : Nat) : M (Option Nat) := do
  beginTrans
  let ip := (← file f).ip
  ilock ip
  let r ← writei ip addr (← file f).off n1
  advance f r
  iunlock ip
  commitTrans
  return r

def filewriteLoop (f : Nat) (addr : Bytes.Store) : List (Nat × Nat) → Nat → M Nat
  | [],i => return i
  | (_,n1) :: rest,i => do
    match ← writeTrans f (fun t => addr (i+t)) n1 with
    | none => return i
    | some r => if r ≠ n1 then panic .shortFilewrite else filewriteLoop f addr rest (i+r)

-- max is (LOGSIZE-1-1-2)/2*512 = 1536. What pipewrite does is left open; none is -1.
def filewrite (pipewrite : Nat → Bytes.Store → Int → M (Option Nat)) (f : Nat) (addr : Bytes.Store) (n : Int) : M (Option Nat) := do
  let file ← file f
  if !file.writable then return none
  else match file.type with
    | .pipe => pipewrite f addr n
    | .inode =>
      let i ← filewriteLoop f addr (Chunks.chunks 1536 0 n.toNat) 0
      return if (i : Int) = n then some i else none
    | .none => panic .filewrite

section
variable {L : Layout} {s mid next : State} {dn now after : Nat → Dinode} {E : Stop → State → Prop}

theorem sat_file (g : File → M α) (Q : α → State → Prop) : Sat (file f >>= g) s E Q ↔ Sat (g (s.ftable f)) s E Q := by
  rw [file,sat_bind,sat_get_bind]
  exact sat_pure ..

theorem sat_setFile (h : File → File) (g : Unit → M α) (Q : α → State → Prop) :
    Sat (setFile f h >>= g) s E Q ↔ Sat (g ()) { s with ftable := Function.update s.ftable f (h (s.ftable f)) } E Q := sat_modify_bind ..

theorem sat_advance (g : Unit → M α) (Q : α → State → Prop) (more : 0 < r) :
    Sat (advance f (some r) >>= g) s E Q ↔
      Sat (g ()) { s with ftable := Function.update s.ftable f { s.ftable f with off := ((s.ftable f).off+r) % 4294967296 } } E Q := by
  cases r with
  | zero => omega
  | succ r =>
    rw [advance]
    exact sat_setFile ..

def grown (size off k : Nat) : Nat := if k = 0 then size else max size (off+k)

-- The first k bytes of addr are in file f, from off on, and its offset is behind them.
structure Advanced (L : Layout) (s next : State) (dn after : Nat → Dinode) (f i : Nat) (addr : Bytes.Store) (k : Nat) : Prop where
  quiet : Quiet L next after
  cached : Cached L next after (s.ftable f).ip i
  ftable : next.ftable = Function.update s.ftable f { s.ftable f with off := (s.ftable f).off+k }
  icache : ∀ j, j ≠ (s.ftable f).ip → next.icache j = s.icache j
  ref : (next.icache (s.ftable f).ip).ref = (s.icache (s.ftable f).ip).ref
  devsw : next.devsw = s.devsw
  mine : ∀ j, j ≠ i → after j = dn j
  shape : ∃ addrs, after i = (withAddrs (dn i) addrs).sized (grown (dn i).size (s.ftable f).off k)
  bytes : ∀ x < grown (dn i).size (s.ftable f).off k, byteAt (L.view next.log) (after i) x =
    if (s.ftable f).off ≤ x ∧ x < (s.ftable f).off+k then addr (x-(s.ftable f).off) else byteAt (L.view s.log) (dn i) x
  others : ∀ j, j ≠ i → ∀ x < (dn j).size, byteAt (L.view next.log) (dn j) x = byteAt (L.view s.log) (dn j) x
  count : (spare L (L.view next.log)).card + need (grown (dn i).size (s.ftable f).off k) = (spare L (L.view s.log)).card + need (dn i).size
  commits : ∃ lhs, next.commits = lhs ++ s.commits ∧ ∀ lh ∈ lhs, Logged L i lh

theorem Advanced.refl (quiet : Quiet L s dn) (cached : Cached L s dn (s.ftable f).ip i) : Advanced L s s dn dn f i addr 0 where
  quiet := quiet
  cached := cached
  ftable := by simp
  icache _ _ := rfl
  ref := rfl
  devsw := rfl
  mine _ _ := rfl
  shape := ⟨(dn i).addrs,rfl⟩
  bytes x _ := by rw [if_neg (by omega)]
  others _ _ _ _ := rfl
  count := rfl
  commits := ⟨[],rfl,by simp⟩

theorem grown_grown (low : off ≤ size) : grown (grown size off k) (off+k) n = grown size off (k+n) := by
  unfold grown
  split <;> split <;> split <;> omega

theorem Advanced.trans (one : Advanced L s mid dn now f i addr k) (two : Advanced L mid next now after f i (fun t => addr (k+t)) n)
    (low : (s.ftable f).off ≤ (dn i).size) : Advanced L s next dn after f i addr (k+n) := by
  have slot : mid.ftable f = { s.ftable f with off := (s.ftable f).off+k } := by rw [one.ftable,Function.update_self]
  obtain ⟨addrs,shape⟩ := one.shape
  have size : (now i).size = grown (dn i).size (s.ftable f).off k := by rw [shape]; rfl
  have whole := grown_grown (k := k) (n := n) low
  have cached := two.cached
  have icache := two.icache
  have ref := two.ref
  have ftable := two.ftable
  have later := two.shape
  have bytes := two.bytes
  have count := two.count
  simp only [slot,size,whole] at cached icache ref ftable later bytes count
  refine ⟨two.quiet,cached,?_,fun j other => (icache j other).trans (one.icache j other),ref.trans one.ref,two.devsw.trans one.devsw,
    fun j other => (two.mine j other).trans (one.mine j other),?_,fun x inside => ?_,fun j other x inside => ?_,count.trans one.count,?_⟩
  · rw [ftable,one.ftable,Function.update_idem,Nat.add_assoc]
  · obtain ⟨more,eq⟩ := later
    exact ⟨more,by rw [eq,shape]; rfl⟩
  · rw [bytes x inside]
    by_cases new : (s.ftable f).off+k ≤ x ∧ x < (s.ftable f).off+k+n
    · rw [if_pos new,if_pos (by omega)]
      congr 1
      omega
    have old : x < grown (dn i).size (s.ftable f).off k := by
      unfold grown at inside ⊢
      split at inside <;> split <;> omega
    rw [if_neg new,one.bytes x old]
    exact if_congr (by omega) rfl rfl
  · have same := two.others j other x
    rw [one.mine j other] at same
    exact (same inside).trans (one.others j other x inside)
  · obtain ⟨first,eq,few⟩ := one.commits
    obtain ⟨second,eq',few'⟩ := two.commits
    refine ⟨second ++ first,by rw [eq',eq,List.append_assoc],fun lh member => ?_⟩
    rcases List.mem_append.mp member with new | old
    · exact few' lh new
    · exact few lh old

def State.opened (s : State) (ip : Nat) (d : Dinode) : State := { s.locked ip d with log := { s.log with busy := true } }

theorem Quiet.opened (quiet : Quiet L s dn) (ip : Nat) (d : Dinode) : Files L (s.opened ip d) dn :=
  quiet.files.moved quiet.files.calm.sane.begin quiet.held rfl

theorem Cached.opened (cached : Cached L s dn ip i) : Slotted L (s.opened ip (dn i)) dn ip i where
  inum := by simpa [State.opened,State.locked] using cached.inum
  small := cached.small
  din := by simp [State.opened,State.locked]

section
variable (quiet : Quiet L s dn) (cached : Cached L s dn (s.ftable f).ip i) (plain : (dn i).type ≠ 3)
include quiet cached plain

theorem writeTrans_spec (low : (s.ftable f).off ≤ (dn i).size) (top : (s.ftable f).off+n ≤ 71680) (short : n ≤ 1536) (more : 0 < n)
    (enough : need (max (dn i).size ((s.ftable f).off+n)) ≤ (spare L (L.view s.log)).card + need (dn i).size)
    (jam : ∀ t : State, Logged L i t.log.lh → Choked L t.log → E (.panic .tooBigTransaction) t) :
    Sat (writeTrans f addr n) s E fun r next => r = some n ∧ ∃ after, Advanced L s next dn after f i addr n := by
  have none : s.log.lh = [] := quiet.files.calm.sane.idle quiet.idle
  have pieces : (Chunks.chunks 512 (s.ftable f).off n).length ≤ 4 := by
    have := pieces_le (s.ftable f).off n
    omega
  have logged : ∀ lh : List Nat, lh.Nodup → (∃ (x : Nat) (ys : List Nat), ys.length ≤ (Chunks.chunks 512 (s.ftable f).off n).length ∧
      ∀ z ∈ lh, z ∈ s.log.lh ∨ (∃ b < L.size, z = BBLOCK b L.ninodes) ∨ z = x ∨ z = IBLOCK i ∨ z ∈ ys) → Logged L i lh := by
    rintro lh distinct ⟨x,ys,few,among⟩
    refine ⟨distinct,x,ys,by omega,fun z member => ?_⟩
    simpa [none] using among z member
  rw [writeTrans]
  refine sat_begin _ _ quiet.idle ?_
  rw [sat_file]
  refine sat_ilock _ _ (quiet.files.moved quiet.files.calm.sane.begin quiet.held rfl) quiet.held
    ⟨cached.inum,cached.small,cached.ref,cached.unlocked,cached.copy,cached.kind⟩ ?_
  rw [sat_file]
  refine (writei_spec (quiet.opened _ _) rfl cached.opened quiet.held plain low top enough ?_).bind ?_
  · intro log held icache x ys few among choked
    exact jam _ (logged _ choked.sane.distinct ⟨x,ys,few,among⟩) choked
  rintro _ mid ⟨rfl,after,written⟩
  rw [sat_advance _ _ more]
  obtain ⟨log,addrs,rfl⟩ := written.state
  refine sat_iunlock _ _ (by simpa [State.opened,State.locked] using cached.ref) (by simp [State.opened,State.locked]) ?_
  refine sat_commit _ _ written.files.calm.sane fun log' sane idle view => ?_
  rw [sat_pure]
  have wide : (s.ftable f).off+n < 4294967296 := by omega
  have size : grown (dn i).size (s.ftable f).off n = max (dn i).size ((s.ftable f).off+n) := if_neg (by omega)
  have mine := written.at
  have shape : after i = (withAddrs (dn i) addrs).sized (max (dn i).size ((s.ftable f).off+n)) := by
    rw [mine]
    simp [State.opened,State.locked]
  refine ⟨rfl,after,⟨written.files.moved sane quiet.held view,idle,quiet.held⟩,?cached,?ftable,?icache,?ref,rfl,?mine,?shape,?bytes,?others,
    ?count,?commits⟩
  case cached =>
    refine ⟨?_,cached.small,?_,?_,fun _ => ?_,?_⟩
    · simpa [State.opened,State.locked] using cached.inum
    · simpa [State.opened,State.locked] using cached.ref
    · simp
    · simp [mine]
    · rw [shape]; exact cached.kind
  case ftable => simp [State.opened,State.locked,Nat.mod_eq_of_lt wide]
  case icache => intro j other; simp [State.opened,State.locked,other]
  case ref => simp [State.opened,State.locked]
  case mine => intro j other; rw [written.mine,Function.update_of_ne other]
  case shape => exact ⟨addrs,by rw [size,shape]⟩
  case bytes =>
    rw [size,view]
    exact written.bytes
  case others =>
    intro j other x inside
    have same := written.others j other x inside
    rw [written.mine,Function.update_of_ne other] at same
    rw [view]
    exact same
  case count =>
    rw [size,view]
    exact written.count
  case commits =>
    refine ⟨[log.lh],rfl,fun lh member => ?_⟩
    rw [List.mem_singleton.mp member]
    exact logged _ written.files.calm.sane.distinct written.logged

theorem writeTrans_refused (word : (s.ftable f).off < 4294967296) (short : n ≤ 1536) (bad : (dn i).size < (s.ftable f).off ∨ 71680 < (s.ftable f).off+n) :
    Sat (writeTrans f addr n) s E fun r next => r = none ∧ Advanced L s next dn dn f i addr 0 := by
  have slot : ((s.opened (s.ftable f).ip (dn i)).icache (s.ftable f).ip).din = dn i := cached.opened.din.symm
  rw [writeTrans]
  refine sat_begin _ _ quiet.idle ?_
  rw [sat_file]
  refine sat_ilock _ _ (quiet.files.moved quiet.files.calm.sane.begin quiet.held rfl) quiet.held
    ⟨cached.inum,cached.small,cached.ref,cached.unlocked,cached.copy,cached.kind⟩ ?_
  rw [sat_file]
  have run : Sat (writei (s.ftable f).ip addr (s.ftable f).off n) (s.opened (s.ftable f).ip (dn i)) E fun r next =>
      r = none ∧ next = s.opened (s.ftable f).ip (dn i) :=
    writei_refused (by rw [slot]; exact plain) word (by omega) (by rw [slot]; exact bad.imp_right .inr)
  refine run.bind ?_
  rintro _ _ ⟨rfl,rfl⟩
  rw [show advance f none = pure () from rfl,sat_pure_bind]
  refine sat_iunlock _ _ (by simpa [State.opened,State.locked] using cached.ref) (by simp [State.opened,State.locked]) ?_
  refine sat_commit _ _ quiet.files.calm.sane.begin fun log sane idle view => ?_
  rw [sat_pure]
  have view : L.view log = L.view s.log := view
  refine ⟨rfl,⟨quiet.files.moved sane quiet.held view,idle,quiet.held⟩,?cached,?ftable,?icache,?ref,rfl,fun _ _ => rfl,⟨(dn i).addrs,rfl⟩,
    ?bytes,?others,?count,?commits⟩
  case cached =>
    refine ⟨?_,cached.small,?_,?_,fun _ => ?_,cached.kind⟩
    · simpa [State.opened,State.locked] using cached.inum
    · simpa [State.opened,State.locked] using cached.ref
    · simp
    · simp [State.opened,State.locked]
  case ftable => simp [State.opened,State.locked]
  case icache => intro j other; simp [State.opened,State.locked,other]
  case ref => simp [State.opened,State.locked]
  case bytes =>
    intro x _
    rw [view,if_neg (by omega)]
  case others => intro j other x _; rw [view]
  case count => rw [view]; rfl
  case commits =>
    refine ⟨[s.log.lh],rfl,fun lh member => ?_⟩
    rw [List.mem_singleton.mp member,quiet.files.calm.sane.idle quiet.idle]
    exact .nil L i

end

-- How far a write of n bytes comes that starts inside of the file, with o of them done.
structure Stops (off o n r : Nat) : Prop where
  least : o ≤ r
  fits : off+o+n ≤ 71680 → r = o+n
  cut : 71680 < off+o+n → r < o+n
  start : off+o+min n 1536 ≤ 71680 → o+min n 1536 ≤ r
  refused : 71680 < off+o+min n 1536 → r = o

theorem Advanced.size (going : Advanced L s next dn after f i addr k) : (after i).size = grown (dn i).size (s.ftable f).off k := by
  obtain ⟨_,shape⟩ := going.shape
  rw [shape]
  rfl

theorem Advanced.within (going : Advanced L s next dn after f i addr k) (low : (s.ftable f).off ≤ (dn i).size) :
    (s.ftable f).off+k ≤ (after i).size := by
  rw [going.size]
  unfold grown
  split <;> omega

theorem filewriteLoop_spec (plain : (dn i).type ≠ 3) (low : (s.ftable f).off ≤ (dn i).size)
    (enough : need (min 71680 (max (dn i).size ((s.ftable f).off+n))) ≤ (spare L (L.view s.log)).card + need (dn i).size)
    (jam : ∀ t : State, Logged L i t.log.lh → Choked L t.log → E (.panic .tooBigTransaction) t) :
    ∀ o m, o+m = n → (m ≠ 0 → o%1536 = 0) → ∀ mid now, Advanced L s mid dn now f i addr o →
      Sat (filewriteLoop f addr (Chunks.chunks 1536 o m) o) mid E fun r next =>
        Stops (s.ftable f).off o m r ∧ ∃ after, Advanced L s next dn after f i addr r := by
  intro o m
  induction o,m using Chunks.chunks_induct (B := 1536) (by decide) with
  | zero o =>
    intro total _ mid now going
    have within := going.within low
    have top := (going.quiet.files.backed i).size
    rw [Chunks.chunks_zero,filewriteLoop,sat_pure]
    exact ⟨⟨by omega,by omega,by omega,by omega,by omega⟩,now,going⟩
  | step o m n1 some cut more ih =>
    intro total even mid now going
    have within := going.within low
    have top := (going.quiet.files.backed i).size
    have slot : mid.ftable f = { s.ftable f with off := (s.ftable f).off+o } := by rw [going.ftable,Function.update_self]
    have off : (mid.ftable f).off = (s.ftable f).off+o := by rw [slot]
    have ip : (mid.ftable f).ip = (s.ftable f).ip := by rw [slot]
    have first : n1 = min m 1536 := by rw [even some] at cut; omega
    have cached : Cached L mid now (mid.ftable f).ip i := by rw [ip]; exact going.cached
    have kind : (now i).type ≠ 3 := by
      obtain ⟨_,shape⟩ := going.shape
      rw [shape]
      exact plain
    rw [Chunks.chunks_step (by decide) some,← cut,filewriteLoop]
    by_cases fits : (s.ftable f).off+o+n1 ≤ 71680
    · have size : max (now i).size ((s.ftable f).off+o+n1) ≤ min 71680 (max (dn i).size ((s.ftable f).off+n)) := by
        have least : (dn i).size ≤ (now i).size := by rw [going.size]; unfold grown; split <;> omega
        have most : (now i).size ≤ max (dn i).size ((s.ftable f).off+o) := by rw [going.size]; unfold grown; split <;> omega
        omega
      have room := need_mono size
      have count := going.count
      rw [← going.size] at count
      refine (writeTrans_spec going.quiet cached kind (by omega) (by omega) (by omega) more (by rw [off]; omega) jam).bind ?_
      rintro _ next ⟨rfl,after,turn⟩
      dsimp only
      rw [if_neg (by simp)]
      refine (ih (by omega) (fun more => by omega) next after (going.trans turn low)).post ?_
      rintro r last ⟨stops,done⟩
      refine ⟨⟨?_,fun whole => ?_,fun long => ?_,fun _ => ?_,by omega⟩,done⟩
      · have := stops.least; omega
      · rw [stops.fits (by omega)]; omega
      · have := stops.cut (by omega); omega
      · have := stops.least; omega
    · refine (writeTrans_refused going.quiet cached kind (by omega) (by omega) (.inr (by omega))).bind ?_
      rintro _ next ⟨rfl,turn⟩
      exact .done ⟨⟨by omega,by omega,by omega,by omega,by omega⟩,now,going.trans turn low⟩

structure Regular (L : Layout) (s : State) (dn : Nat → Dinode) (f i : Nat) : Prop where
  type : (s.ftable f).type = .inode
  off : (s.ftable f).off < 4294967296
  cached : Cached L s dn (s.ftable f).ip i
  kind : (dn i).type = 2

theorem filewrite_spec (quiet : Quiet L s dn) (regular : Regular L s dn f i) (writable : (s.ftable f).writable = true)
    (enough : need (min 71680 (max (dn i).size ((s.ftable f).off+n))) ≤ (spare L (L.view s.log)).card + need (dn i).size)
    (jam : ∀ t : State, Logged L i t.log.lh → Choked L t.log → E (.panic .tooBigTransaction) t) :
    Sat (filewrite pipewrite f addr n) s E fun r next => ∃ k after, Advanced L s next dn after f i addr k ∧
      ((s.ftable f).off ≤ (dn i).size → Stops (s.ftable f).off 0 n k) ∧ ((dn i).size < (s.ftable f).off → k = 0) ∧
      r = if k = n then some n else none := by
  have plain : (dn i).type ≠ 3 := by rw [regular.kind]; decide
  have begins : Advanced L s s dn dn f i addr 0 := .refl quiet regular.cached
  have loop : Sat (filewriteLoop f addr (Chunks.chunks 1536 0 n) 0) s E fun k next => ∃ after, Advanced L s next dn after f i addr k ∧
      ((s.ftable f).off ≤ (dn i).size → Stops (s.ftable f).off 0 n k) ∧ ((dn i).size < (s.ftable f).off → k = 0) := by
    by_cases low : (s.ftable f).off ≤ (dn i).size
    · refine (filewriteLoop_spec plain low enough jam 0 n (by omega) (by simp) s dn begins).post ?_
      rintro k next ⟨stops,after,going⟩
      exact ⟨after,going,fun _ => stops,by omega⟩
    by_cases none : n = 0
    · subst none
      exact .done ⟨dn,begins,by omega,fun _ => rfl⟩
    rw [Chunks.chunks_step (by decide) none,filewriteLoop]
    refine (writeTrans_refused quiet regular.cached plain regular.off (by omega) (.inl (by omega))).bind ?_
    rintro _ next ⟨rfl,turn⟩
    simp only [Nat.zero_add] at turn
    exact .done ⟨dn,turn,by omega,fun _ => rfl⟩
  rw [filewrite,sat_file,if_neg (by simp [writable]),regular.type,Int.toNat_natCast]
  refine loop.bind ?_
  rintro k next ⟨after,going,inside,beyond⟩
  refine .done ⟨k,after,going,inside,beyond,?_⟩
  by_cases same : k = n
  · simp [same]
  · rw [if_neg (by omega),if_neg same]

def text (L : Layout) (s : State) (i : Nat) : List UInt8 := contents (L.view s.log) (dinodeAt (L.view s.log) i)

theorem Advanced.result (going : Advanced L s next dn after f i addr k) (files : Files L s dn) (low : (s.ftable f).off ≤ (dn i).size ∨ k = 0) :
    text L next i = (text L s i).take (s.ftable f).off ++ (List.range k).map addr ++ (text L s i).drop ((s.ftable f).off+k) := by
  have small := going.cached.small
  obtain ⟨addrs,shape⟩ := going.shape
  rw [text,text,going.quiet.files.copies i small,files.copies i small]
  by_cases none : k = 0
  · subst none
    rw [List.range_zero,List.map_nil,List.append_nil,Nat.add_zero,List.take_append_drop]
    refine contents_congr (by rw [going.size]; rfl) fun x inside => ?_
    rw [going.bytes x inside,if_neg (by omega)]
  · have size : (after i).size = max (dn i).size ((s.ftable f).off+k) := by rw [going.size,grown,if_neg none]
    exact contents_splice (low.resolve_right none) size fun x inside => going.bytes x (by rw [← going.size]; exact inside)

structure AllOrNothing (L : Layout) (pipewrite : Nat → Bytes.Store → Int → M (Option Nat)) (f i : Nat) (addr : Bytes.Store) (n : Nat)
    (s : State) : Prop where
  all : ∀ next, filewrite pipewrite f addr n s = (.ok (some n),next) → (next.ftable f).off = (s.ftable f).off+n ∧
    text L next i = (text L s i).take (s.ftable f).off ++ (List.range n).map addr ++ (text L s i).drop ((s.ftable f).off+n)
  nothing : ∀ next, filewrite pipewrite f addr n s = (.ok none,next) → (next.ftable f).off = (s.ftable f).off ∧ text L next i = text L s i

theorem Advanced.unchanged (going : Advanced L s next dn after f i addr 0) (files : Files L s dn) :
    (next.ftable f).off = (s.ftable f).off ∧ text L next i = text L s i := by
  refine ⟨by rw [going.ftable]; simp,?_⟩
  rw [going.result files (.inr rfl)]
  simp

theorem filewrite_closed (closed : (s.ftable f).writable = false) :
    Sat (filewrite pipewrite f addr n) s E fun r next => r = none ∧ next = s := by
  rw [filewrite,sat_file,if_pos (by simp [closed])]
  exact .done ⟨rfl,rfl⟩

section
variable (quiet : Quiet L s dn) (regular : Regular L s dn f i) (writable : (s.ftable f).writable = true)
  (enough : need (min 71680 (max (dn i).size ((s.ftable f).off+n))) ≤ (spare L (L.view s.log)).card + need (dn i).size)
include quiet regular writable enough

-- A write that runs into the largest file size is cut between two transactions, and what
-- the first ones wrote stays.
theorem filewrite_cut (small : L.size ≤ 4096) (ten : L.nlog = 10) (low : (s.ftable f).off ≤ (dn i).size)
    (first : (s.ftable f).off+min n 1536 ≤ 71680) (long : 71680 < (s.ftable f).off+n) : ¬ AllOrNothing L pipewrite f i addr n s := by
  intro either
  have run : Sat (filewrite pipewrite f addr n) s (fun _ _ => False) _ :=
    filewrite_spec quiet regular writable enough fun _ logged choked => logged.fits choked small ten
  obtain ⟨r,next,ran,k,after,going,inside,_,rfl⟩ := run.returns
  have stops := inside low
  have some := stops.start (by omega)
  have cut := stops.cut (by omega)
  rw [if_neg (by omega)] at ran
  have same := (either.nothing next ran).1
  rw [going.ftable,Function.update_self] at same
  simp only at same
  omega

theorem filewrite_whole (whole : (dn i).size < (s.ftable f).off ∨ 71680 < (s.ftable f).off+min n 1536 ∨ (s.ftable f).off+n ≤ 71680) :
    AllOrNothing L pipewrite f i addr n s := by
  have files := quiet.files
  have run : Sat (filewrite pipewrite f addr n) s (fun _ _ => True) _ := filewrite_spec quiet regular writable enough fun _ _ _ => trivial
  refine ⟨fun next ran => ?_,fun next ran => ?_⟩
  · obtain ⟨k,after,going,inside,beyond,eq⟩ := run.returned ran
    obtain rfl : k = n := by
      by_contra other
      rw [if_neg other] at eq
      cases eq
    refine ⟨by rw [going.ftable]; simp,going.result files ?_⟩
    by_cases low : (s.ftable f).off ≤ (dn i).size
    · exact .inl low
    · exact .inr (beyond (by omega))
  · obtain ⟨k,after,going,inside,beyond,eq⟩ := run.returned ran
    have short : k ≠ n := by
      rintro rfl
      rw [if_pos rfl] at eq
      cases eq
    obtain rfl : k = 0 := by
      by_cases low : (s.ftable f).off ≤ (dn i).size
      · have stops := inside low
        by_cases fits : (s.ftable f).off+n ≤ 71680
        · have := stops.fits (by omega)
          omega
        · exact stops.refused (by omega)
      · exact beyond (by omega)
    exact going.unchanged files

end

-- No transaction of the write logs more than seven sectors, and none runs out of log.
def FewLogged (pipewrite : Nat → Bytes.Store → Int → M (Option Nat)) (f : Nat) (addr : Bytes.Store) (n : Nat) (s : State) : Prop :=
  ∀ r next, filewrite pipewrite f addr n s = (r,next) → r ≠ .error (.panic .tooBigTransaction) ∧ next.log.lh.length ≤ 7 ∧
    ∃ lhs, next.commits = lhs ++ s.commits ∧ ∀ lh ∈ lhs, lh.Nodup ∧ lh.length ≤ 7

end

theorem openFile_regular {s : State} (small : i < L.ninodes) (kind : (dn i).type = 2) (word : off < 4294967296) :
    Regular L (s.openFile i off) dn 0 i := by
  refine ⟨by simp [State.openFile],by simpa [State.openFile] using word,⟨?_,small,?_,?_,?_,by rw [kind]; decide⟩,kind⟩
  all_goals simp [State.openFile]

def solidOpen : State := (mount (solidLayout 11 (by decide)) (solidDisk 11 2 fun _ => .zero)).openFile 1 5532

-- The blocks of the file come from the log from here on, its indirect block too. The bytes
-- 6668 and 7680 to 7691 of the file are then read as an address and as a superblock.
def forged : Bytes.Store := fun t => if 5532+t = 6668 then 1 else if 5532+t = 7680 then 27 else if 5532+t = 7688 then 16 else 0

end Xv6.Fs.Core
