import Xv6.Syscall

namespace Xv6

theorem mem_span : x ∈ span a n ↔ ∃ j, j < n ∧ x = w32 (a+j) := by
  simp [span,eq_comm]

theorem span_append (a m n : Nat) : span a m ++ span (a+m) n = span a (m+n) := by
  simp [span,List.range_add,Nat.add_assoc]

theorem span_within (a : Nat) (bound : m ≤ n) (member : x ∈ span a m) : x ∈ span a n := by
  obtain ⟨j,small,rfl⟩ := mem_span.mp member
  exact mem_span.mpr ⟨j,by omega,rfl⟩

theorem span_below (fits : a+n ≤ sz) (low : sz ≤ 2147483648) (member : x ∈ span a n) : x < sz := by
  obtain ⟨j,small,rfl⟩ := mem_span.mp member
  rw [w32,Nat.mod_eq_of_lt (by omega)]
  omega

theorem argptr_parts (u : User) (checked : u.argptr n size = some p) :
    p < u.sz ∧ (((p : Int) + size) % 4294967296).toNat ≤ u.sz := by
  obtain ⟨i,_,rest⟩ := Option.bind_eq_some_iff.mp checked
  split at rest
  · cases rest
  · cases rest; omega

theorem argptr_range (u : User) (checked : u.argptr n size = some p) (sign : 0 ≤ size)
    (word : size < 2147483648) : p + size.toNat ≤ u.sz := by
  obtain ⟨below,sum⟩ := argptr_parts u checked
  have low := u.low
  omega

theorem argint_word (u : User) (fetched : u.argint n = some x) : x < 4294967296 := by
  unfold User.argint User.fetchint at fetched
  split at fetched
  · cases fetched
  · cases fetched; exact Bytes.ld32_lt _ _

theorem sgn_range (word : x < 4294967296) : -2147483648 ≤ sgn x ∧ sgn x < 2147483648 := by
  unfold sgn; split <;> omega

theorem consoleread_le (keys : List (Option UInt8)) (n : Nat) : consoleread keys n ≤ n := by
  fun_induction consoleread keys n with
  | case1 => simp
  | case2 => simp
  | case3 => simp
  | case4 => simp
  | case5 => simp
  | case6 _ _ _ _ _ ih => omega

theorem readiLoop_span (off n dst : Nat) :
    readiLoop dst (Chunks.chunks 512 off n) = span dst (min (off+n) 71680 - off) := by
  revert dst
  refine Chunks.chunks_induct (by decide : 0 < 512) (motive := fun off n => ∀ dst,
    readiLoop dst (Chunks.chunks 512 off n) = span dst (min (off+n) 71680 - off)) ?_ ?_ off n
  · intro off dst
    have none : min (off+0) 71680 - off = 0 := by omega
    rw [none]; rfl
  intro off n m some piece positive ih dst
  rw [Chunks.chunks_step (by decide) some,← piece,readiLoop]
  split
  · rename_i inside
    rw [ih,span_append]
    congr 1
    omega
  · rename_i beyond
    have none : min (off+n) 71680 - off = 0 := by omega
    rw [none]; rfl

theorem writeiLoop_span (off n src : Nat) : writeiLoop src (Chunks.chunks 512 off n) = span src n := by
  revert src
  refine Chunks.chunks_induct (by decide : 0 < 512) (motive := fun off n => ∀ src,
    writeiLoop src (Chunks.chunks 512 off n) = span src n) (fun _ _ => rfl) ?_ off n
  intro off n m some piece positive ih src
  rw [Chunks.chunks_step (by decide) some,← piece,writeiLoop,ih,span_append]
  congr 1
  omega

theorem writeiLoads_within (member : x ∈ (writeiLoads type major size src off n).1) : x ∈ span src n := by
  unfold writeiLoads at member
  split at member
  · split at member
    · exact member
    · cases member
  · split at member
    · cases member
    · rwa [writeiLoop_span] at member

theorem filewriteLoop_within (member : x ∈ filewriteLoop type major fuel size addr off left) :
    x ∈ span addr left := by
  induction fuel generalizing size addr off left with
  | zero => cases member
  | succ fuel ih =>
    simp only [filewriteLoop] at member
    split at member
    · cases member
    have front : ∀ y, y ∈ (writeiLoads type major size addr off (min left 1536)).1 → y ∈ span addr left :=
      fun y loaded => span_within addr (by omega) (writeiLoads_within loaded)
    split at member
    · rcases List.mem_append.mp member with first | later
      · exact front x first
      · have rest := ih later
        rw [show left = min left 1536 + (left - min left 1536) by omega,← span_append]
        exact List.mem_append_right _ rest
    · exact front x member

theorem filewrite_within (f : OpenFile) (member : x ∈ filewriteLoads f p n) : x ∈ span p n.toNat := by
  unfold filewriteLoads at member
  split at member
  · cases member
  · split at member
    · exact span_within p (by omega) member
    · exact filewriteLoop_within member

theorem readi_within {n : Int} (sign : 0 ≤ n) (word : n < 2147483648)
    (member : x ∈ readiStores type major size keys dst off (n % 4294967296).toNat) : x ∈ span dst n.toNat := by
  have same : (n % 4294967296).toNat = n.toNat := by omega
  rw [same] at member
  unfold readiStores at member
  split at member
  · split at member
    · have signed : (sgn n.toNat).toNat = n.toNat := by unfold sgn; split <;> omega
      rw [signed] at member
      exact span_within dst (consoleread_le _ _) member
    · cases member
  split at member
  · cases member
  rename_i allowed
  rw [readiLoop_span] at member
  refine span_within dst ?_ member
  unfold w32 at *
  split <;> omega

theorem fileread_within {n : Int} (f : OpenFile) (sign : 0 ≤ n) (word : n < 2147483648)
    (member : x ∈ filereadStores f p n) : x ∈ span p n.toNat := by
  unfold filereadStores at member
  split at member
  · cases member
  · split at member
    · exact span_within p (by omega) member
    · exact readi_within sign word member

-- The defect: argptr adds a negative length to the pointer and passes, and
-- readi takes the same length as a huge unsigned one, clipped to end of file.
def Overrun (u : User) (f : OpenFile) (p : Nat) (n : Int) : Prop :=
  n < 0 ∧ f.readable = true ∧ ∃ type major size keys, f.behind = .inode type major size keys ∧
    type ≠ T_DEV ∧ f.off ≤ size ∧ (f.off : Int) + n < 0 ∧ u.sz < p + (min size 71680 - f.off)

theorem negative_read (f : OpenFile) (negative : n < 0) (word : -2147483648 ≤ n) (readable : f.readable = true)
    (regular : f.behind = .inode type major size keys) (notDev : type ≠ T_DEV) (inside : f.off ≤ size)
    (unwrapped : (f.off : Int) + n < 0) :
    filereadStores f p n = span p (min size 71680 - f.off) := by
  have unsigned : (n % 4294967296).toNat = (4294967296 + n).toNat := by omega
  have sum : w32 (f.off + (n % 4294967296).toNat) = f.off + (n % 4294967296).toNat := by
    unfold w32; omega
  simp only [filereadStores,readable,regular,readiStores,notDev]
  rw [sum]
  have admitted : ¬ (size < f.off ∨ f.off + (n % 4294967296).toNat < f.off) := by omega
  simp only [Bool.not_true,Bool.false_eq_true,if_false,admitted,readiLoop_span]
  congr 1
  split <;> omega

theorem negative_elsewhere (f : OpenFile) (negative : n < 0) (word : -2147483648 ≤ n)
    (member : x ∈ filereadStores f p n) :
    f.readable = true ∧ ∃ type major size keys, f.behind = .inode type major size keys ∧
      type ≠ T_DEV ∧ f.off ≤ size ∧ (f.off : Int) + n < 0 := by
  unfold filereadStores at member
  split at member
  · cases member
  rename_i readable
  refine ⟨by simpa using readable,?_⟩
  split at member
  · rename_i bytes _
    have none : min n.toNat bytes = 0 := by omega
    rw [none] at member; cases member
  rename_i type major size keys regular
  refine ⟨type,major,size,keys,regular,?_⟩
  unfold readiStores at member
  split at member
  · split at member
    · have signed : (sgn (n % 4294967296).toNat).toNat = 0 := by unfold sgn; split <;> omega
      rw [signed] at member
      cases keys <;> cases member
    · cases member
  rename_i notDev
  split at member
  · cases member
  rename_i admitted
  refine ⟨notDev,by omega,?_⟩
  have noWrap : ¬ w32 (f.off + (n % 4294967296).toNat) < f.off := fun wraps => admitted (.inr wraps)
  unfold w32 at noWrap
  omega

theorem read_confined_iff (u : User) (f : OpenFile) (word : -2147483648 ≤ n) (top : n < 2147483648)
    (checked : u.argptr 1 n = some p) :
    (∀ x ∈ filereadStores f p n, x < u.sz) ↔ ¬ Overrun u f p n := by
  have low := u.low
  obtain ⟨below,_⟩ := argptr_parts u checked
  by_cases sign : 0 ≤ n
  · refine ⟨fun _ excess => by have := excess.1; omega,fun _ x member => ?_⟩
    have range := argptr_range u checked sign top
    exact span_below range low (fileread_within f sign top member)
  have negative : n < 0 := by omega
  constructor
  · rintro confined ⟨_,readable,type,major,size,keys,regular,notDev,inside,unwrapped,past⟩
    have exact_ := negative_read (p := p) f negative word readable regular notDev inside unwrapped
    have last : u.sz ∈ filereadStores f p n := by
      rw [exact_]
      refine mem_span.mpr ⟨u.sz-p,by omega,?_⟩
      rw [w32,Nat.mod_eq_of_lt (by omega)]; omega
    exact Nat.lt_irrefl _ (confined _ last)
  · intro safe x member
    obtain ⟨readable,type,major,size,keys,regular,notDev,inside,unwrapped⟩ :=
      negative_elsewhere f negative word member
    have fits : p + (min size 71680 - f.off) ≤ u.sz := by
      apply Classical.byContradiction
      intro past
      exact safe ⟨negative,readable,type,major,size,keys,regular,notDev,inside,unwrapped,by omega⟩
    rw [negative_read f negative word readable regular notDev inside unwrapped] at member
    exact span_below fits low member

def Terminated (u : User) (a : Nat) : Prop := ∃ j, w32 a + j < u.sz ∧ u.mem (w32 a + j) = 0

theorem w32_add (a j : Nat) : w32 (w32 a + j) = w32 (a+j) := by simp [w32]

theorem string_confined_iff (u : User) (a : Nat) :
    (∀ x, StringAt u.mem a x → x < u.sz) ↔ Terminated u a := by
  have low := u.low
  constructor
  · intro confined
    apply Classical.byContradiction
    intro endless
    -- Without a NUL below sz the scan reaches sz itself, or starts past it.
    have nonzero : ∀ j, w32 a + j < u.sz → u.mem (w32 (a+j)) ≠ 0 := by
      intro j inside zero
      rw [← w32_add,w32,Nat.mod_eq_of_lt (by omega)] at zero
      exact endless ⟨j,inside,zero⟩
    by_cases start : w32 a < u.sz
    · have reached : StringAt u.mem a u.sz := by
        refine ⟨u.sz - w32 a,?_,fun k small => nonzero k (by omega)⟩
        rw [← w32_add,w32,Nat.mod_eq_of_lt (by omega)]; omega
      exact Nat.lt_irrefl _ (confined _ reached)
    · exact start (confined _ ⟨0,by simp,by simp⟩)
  · rintro ⟨j,inside,zero⟩ x ⟨i,rfl,before⟩
    have early : i ≤ j := by
      apply Classical.byContradiction
      intro late
      apply before j (by omega)
      rw [← w32_add,w32,Nat.mod_eq_of_lt (by omega)]
      exact zero
    rw [← w32_add,w32,Nat.mod_eq_of_lt (by omega)]
    omega

-- When a caller of argptr stays inside the process: the length given to read is
-- not one of the overrunning negative ones, and the strings handed to the two
-- table calls end inside the process.
def Safe (u : User) (ofile : Nat → Option OpenFile) : Call → Prop
  | .read => ∀ f n p, argfd u ofile 0 = some f → u.argint 2 = some n →
      u.argptr 1 (sgn n) = some p → ¬ Overrun u f p (sgn n)
  | .setHistory => ∀ p, u.argptr 0 historySize = some p →
      ∀ i : Nat, (i : Int) < sgn (Bytes.ld32 u.mem p) → Terminated u (p+12+128*i)
  | .setExeCmd => ∀ p, u.argptr 0 execmdSize = some p →
      ∀ i : Nat, (i : Int) < sgn (Bytes.ld32 u.mem p) → Terminated u (p+4+64*i)
  | _ => True

theorem filestat_within (f : OpenFile) (member : x ∈ filestatStores f p) : x ∈ span p 20 := by
  unfold filestatStores at member
  split at member
  · cases member
  simp only [List.mem_append,mem_span] at member
  rcases member with (((⟨j,_,rfl⟩ | ⟨j,_,rfl⟩) | ⟨j,_,rfl⟩) | ⟨j,_,rfl⟩) | ⟨j,_,rfl⟩
  · exact mem_span.mpr ⟨4+j,by omega,by rw [Nat.add_assoc]⟩
  · exact mem_span.mpr ⟨8+j,by omega,by rw [Nat.add_assoc]⟩
  · exact mem_span.mpr ⟨j,by omega,rfl⟩
  · exact mem_span.mpr ⟨12+j,by omega,by rw [Nat.add_assoc]⟩
  · exact mem_span.mpr ⟨16+j,by omega,by rw [Nat.add_assoc]⟩

theorem table_confined_iff (u : User) (checked : u.argptr 0 (size : Nat) = some p) (word : size < 2147483648)
    (head : Nat) (inside : head ≤ size) (count : Int) (entry : Nat → Nat) :
    (∀ x, (x ∈ span p head ∨ ∃ i : Nat, (i : Int) < count ∧ StringAt u.mem (entry i) x) → x < u.sz) ↔
    ∀ i : Nat, (i : Int) < count → Terminated u (entry i) := by
  have range := argptr_range u checked (by omega) (by omega)
  constructor
  · intro confined i small
    exact (string_confined_iff u _).mp fun x at_x => confined x (.inr ⟨i,small,at_x⟩)
  · rintro ended x (first | ⟨i,small,at_x⟩)
    · exact span_below (by omega) u.low first
    · exact (string_confined_iff u _).mpr (ended i small) x at_x

theorem confined_iff (u : User) (ofile : Nat → Option OpenFile) (call : Call) :
    (∀ x, Touches u ofile call x → x < u.sz) ↔ Safe u ofile call := by
  have low := u.low
  cases call with
  | read =>
    constructor
    · intro confined f n p file length pointer
      have range := sgn_range (argint_word u length)
      exact (read_confined_iff u f range.1 range.2 pointer).mp
        fun x member => confined x ⟨f,n,p,file,length,pointer,member⟩
    · rintro safe x ⟨f,n,p,file,length,pointer,member⟩
      have range := sgn_range (argint_word u length)
      exact (read_confined_iff u f range.1 range.2 pointer).mpr (safe f n p file length pointer) x member
  | write =>
    refine ⟨fun _ => trivial,?_⟩
    rintro _ x ⟨f,n,p,_,length,pointer,member⟩
    have word := sgn_range (argint_word u length)
    have within := filewrite_within f member
    by_cases sign : 0 ≤ sgn n
    · exact span_below (argptr_range u pointer sign word.2) low within
    · have none : (sgn n).toNat = 0 := by omega
      rw [none] at within; cases within
  | fstat =>
    refine ⟨fun _ => trivial,?_⟩
    rintro _ x ⟨f,p,_,pointer,member⟩
    have range := argptr_range u pointer (by decide) (by decide)
    exact span_below range low (filestat_within f member)
  | pipe =>
    refine ⟨fun _ => trivial,?_⟩
    rintro _ x ⟨p,pointer,member⟩
    exact span_below (argptr_range u pointer (by decide) (by decide)) low member
  | test =>
    refine ⟨fun _ => trivial,?_⟩
    rintro _ x ⟨p,pointer,member⟩
    have range := argptr_range u pointer (by decide) (by decide)
    exact span_below (n := 4) (by omega) low member
  | setHistory =>
    constructor
    · intro confined p pointer
      exact (table_confined_iff u pointer (by decide) 12 (by decide) _ _).mp
        fun x touched => confined x ⟨p,pointer,touched⟩
    · rintro safe x ⟨p,pointer,touched⟩
      exact (table_confined_iff u pointer (by decide) 12 (by decide) _ _).mpr (safe p pointer) x touched
  | setExeCmd =>
    constructor
    · intro confined p pointer
      exact (table_confined_iff u pointer (by decide) 4 (by decide) _ _).mp
        fun x touched => confined x ⟨p,pointer,touched⟩
    · rintro safe x ⟨p,pointer,touched⟩
      exact (table_confined_iff u pointer (by decide) 4 (by decide) _ _).mpr (safe p pointer) x touched

-- Descriptor 0 is a two-byte file; read(0, 4095, -1) in a one-page process.
def shortFile : Nat → Option OpenFile := fun _ => some ⟨true,false,.inode T_FILE 0 2 [],0⟩
def onePage : User :=
  ⟨Bytes.st32 (Bytes.st32 (Bytes.st32 (fun _ => 0) 4 0) 8 4095) 12 4294967295,4096,0,by decide⟩

theorem read_negative_escapes : ¬ ∀ x, Touches onePage shortFile .read x → x < onePage.sz := by
  intro confined
  exact absurd (confined 4096 ⟨_,4294967295,4095,rfl,by decide,by decide,by decide⟩) (by decide)

end Xv6
