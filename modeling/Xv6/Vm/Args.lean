import Xv6.Vm.Stage

namespace Xv6.Vm
open Bytes Exec

-- The stack that exec builds, read back as the new program reads it.

section Stack
variable {m : Bytes.Store} {d : Nat}

def strings (argv : List (List UInt8)) : Nat := (argv.map fun arg => (arg.length+4)/4*4).sum

-- The same with the words below them.
def stackUse (argv : List (List UInt8)) : Nat := strings argv + 4*(argv.length+4)

theorem strings_cons (arg : List UInt8) (rest : List (List UInt8)) : strings (arg :: rest) = (arg.length+4)/4*4 + strings rest := by
  simp [strings]

theorem strings_mem (member : arg ∈ argv) : arg.length+1 ≤ strings argv := by
  induction argv with
  | nil => cases member
  | cons head rest ih =>
    rw [strings_cons]
    rcases List.mem_cons.mp member with same | later
    · rw [same]; omega
    · have := ih later; omega

theorem reaches_fits (floor : Nat) (argv : List (List UInt8)) : ∀ {argc sp : Nat}, sp % 4 = 0 → strings argv ≤ sp →
    Reaches (fun _ => False) floor argc sp argv := by
  induction argv with
  | nil => exact fun _ _ => trivial
  | cons arg rest ih =>
    intro argc sp aligned room
    rw [strings_cons] at room
    exact .inr ⟨fun wraps => by omega,fun _ => ih (by omega) (by omega)⟩

section
variable (pushed : Pushed m d sp argv ptrs last) (aligned : sp % 4 = 0)
include pushed aligned

theorem Pushed.reach : sp = last + strings argv := by
  induction argv generalizing sp ptrs with
  | nil =>
    cases ptrs with
    | nil => rw [show last = sp from pushed]; rfl
    | cons p ptrs => exact pushed.elim
  | cons arg rest ih =>
    cases ptrs with
    | nil => exact pushed.elim
    | cons p ptrs =>
      obtain ⟨fits,place,_,later⟩ := pushed
      have below := ih later (by omega)
      rw [strings_cons]
      omega

theorem Pushed.string (inside : i < argv.length) :
    (∀ j < (argv.getD i []).length+1, userByte m d (ptrs.getD i 0+j) = (argv.getD i [] ++ [0]).getD j 0) ∧
    last ≤ ptrs.getD i 0 ∧ ptrs.getD i 0+((argv.getD i []).length+1) ≤ sp := by
  induction argv generalizing sp ptrs i with
  | nil => cases inside
  | cons arg rest ih =>
    cases ptrs with
    | nil => exact pushed.elim
    | cons p ptrs =>
      obtain ⟨fits,place,bytes,later⟩ := pushed
      have reach := later.reach (by omega)
      cases i with
      | zero => exact ⟨bytes,by show last ≤ p; omega,by show p+(arg.length+1) ≤ sp; omega⟩
      | succ i =>
        obtain ⟨string,low,high⟩ := ih later (by omega) (Nat.lt_of_succ_lt_succ inside)
        exact ⟨string,low,by show ptrs.getD i 0+((rest.getD i []).length+1) ≤ sp; omega⟩

theorem Pushed.apart (order : i < k) (inside : k < argv.length) :
    ptrs.getD k 0+((argv.getD k []).length+1) ≤ ptrs.getD i 0 := by
  induction argv generalizing sp ptrs i k with
  | nil => cases inside
  | cons arg rest ih =>
    cases ptrs with
    | nil => exact pushed.elim
    | cons p ptrs =>
      obtain ⟨fits,place,_,later⟩ := pushed
      obtain ⟨k,rfl⟩ : ∃ j, k = j+1 := ⟨k-1,by omega⟩
      have inside' := Nat.lt_of_succ_lt_succ inside
      cases i with
      | zero => exact (later.string (by omega) inside').2.2
      | succ i => exact ih later (by omega) (Nat.lt_of_succ_lt_succ order) inside'

end

theorem flat_word (words : List Nat) (inside : k < words.length) (byte : j < 4) :
    (words.flatMap wordBytes).getD (4*k+j) 0 = byteOf (words.getD k 0) j := by
  induction words generalizing k with
  | nil => cases inside
  | cons w rest ih =>
    rw [List.flatMap_cons,List.getD_eq_getElem?_getD]
    cases k with
    | zero =>
      rw [List.getElem?_append_left (by show 4*0+j < 4; omega)]
      obtain rfl | rfl | rfl | rfl : j = 0 ∨ j = 1 ∨ j = 2 ∨ j = 3 := by omega
      all_goals rfl
    | succ k =>
      have rest_word := ih (Nat.lt_of_succ_lt_succ inside)
      rw [List.getD_eq_getElem?_getD] at rest_word
      rw [List.getElem?_append_right (by show 4 ≤ _; omega),show 4*(k+1)+j-(wordBytes w).length = 4*k+j by
        show 4*(k+1)+j-4 = _; omega]
      exact rest_word

def userWord (m : Bytes.Store) (d x : Nat) : Nat := ld32 (userByte m d) x

structure StackReads (m : Bytes.Store) (image : Image) (argv : List (List UInt8)) : Prop where
  fake : userWord m image.pgdir image.esp = 4294967295
  argc : userWord m image.pgdir (image.esp+4) = argv.length
  array : ∃ ptrs : List Nat, ptrs.length = argv.length ∧
    (∀ i < argv.length, userWord m image.pgdir (userWord m image.pgdir (image.esp+8)+4*i) = ptrs.getD i 0) ∧
    userWord m image.pgdir (userWord m image.pgdir (image.esp+8)+4*argv.length) = 0 ∧
    -- the words end where the strings begin, and the strings end with the stack page
    userWord m image.pgdir (image.esp+8) = image.esp+12 ∧
    ∀ i < argv.length, (∀ j < (argv.getD i []).length+1, userByte m image.pgdir (ptrs.getD i 0+j) = (argv.getD i [] ++ [0]).getD j 0) ∧
      image.esp+4*(argv.length+4) ≤ ptrs.getD i 0 ∧ ptrs.getD i 0+((argv.getD i []).length+1) ≤ image.sz ∧
      ∀ k < argv.length, i < k → ptrs.getD k 0+((argv.getD k []).length+1) ≤ ptrs.getD i 0
  aligned : image.esp % 4 = 0
  inside : image.sz ≤ image.esp+4096 ∧ image.esp+4*(argv.length+4) ≤ image.sz ∧ image.sz % 4096 = 0
  page : Present (pteOf m image.pgdir (image.sz/4096-1)) ∧ UserBit (pteOf m image.pgdir (image.sz/4096-1))
  guard : Present (pteOf m image.pgdir (image.sz/4096-2)) ∧ ¬ UserBit (pteOf m image.pgdir (image.sz/4096-2))

theorem strings_aligned (argv : List (List UInt8)) : strings argv % 4 = 0 := by
  induction argv with
  | nil => rfl
  | cons arg rest ih => rw [strings_cons]; omega

theorem getD_words (a b c : Nat) (ptrs : List Nat) (inside : k < ptrs.length+4) : ([a,b,c] ++ ptrs ++ [0]).getD k 0 =
    if k = 0 then a else if k = 1 then b else if k = 2 then c else ptrs.getD (k-3) 0 := by
  match k with
  | 0 => rfl
  | 1 => rfl
  | 2 => rfl
  | i+3 =>
    rw [if_neg (by omega),if_neg (by omega),if_neg (by omega)]
    show (ptrs ++ [0]).getD i 0 = ptrs.getD i 0
    rw [List.getD_eq_getElem?_getD,List.getD_eq_getElem?_getD]
    by_cases pointer : i < ptrs.length
    · rw [List.getElem?_append_left pointer]
    · rw [List.getElem?_append_right (by omega),List.getElem?_eq_none (by omega : ptrs.length ≤ i),show i-ptrs.length = 0 by omega]
      rfl

theorem ustack_words (length : ptrs.length = argc) (inside : k < argc+4) (byte : j < 4) :
    (ustack argc sp ptrs).getD (4*k+j) 0 = byteOf
      (if k = 0 then 4294967295 else if k = 1 then argc else if k = 2 then w32 (sp + 4294967296 - (argc+1)*4) else ptrs.getD (k-3) 0) j := by
  unfold ustack
  rw [flat_word _ (by simp; omega) byte,getD_words _ _ _ _ (by omega)]

theorem Laid.reads (laid : Laid m d g entry argv image) (high : g+2 < 524288) :
    StackReads m image argv ∧ stackUse argv ≤ 4096 := by
  obtain ⟨sp,ptrs,length,pushed,esp,floor,bytes⟩ := laid.stack
  have top := laid.sz
  have begins : 4096*(g+2) % 4 = 0 := by omega
  have reach := pushed.reach begins
  have whole := strings_aligned argv
  have few := laid.count
  have pointers : ∀ i < argv.length, _ := fun i inside => pushed.string begins inside
  have word : ∀ k w, k < argv.length+4 → w < 4294967296 → (if k = 0 then 4294967295 else if k = 1 then argv.length
      else if k = 2 then w32 (sp + 4294967296 - (argv.length+1)*4) else ptrs.getD (k-3) 0) = w → userWord m image.pgdir (image.esp+4*k) = w := by
    intro k w inside small value
    unfold userWord
    rw [laid.pgdir,ld32_bytes,Nat.mod_eq_of_lt small]
    intro t bound
    rw [show image.esp+4*k+t = image.esp+(4*k+t) by omega,bytes (4*k+t) (by omega),ustack_words length inside bound,value]
  have third := word 2 (image.esp+12) (by omega) (by omega) (by rw [if_neg (by decide),if_neg (by decide),if_pos rfl]; unfold w32; omega)
  refine ⟨⟨word 0 4294967295 (by omega) (by decide) rfl,word 1 argv.length (by omega) (by omega) rfl,⟨ptrs,length,fun i inside => ?_,?_,third,
    fun i inside => ?_⟩,by omega,⟨by omega,by omega,by omega⟩,?_,?_⟩,by unfold stackUse; omega⟩
  · obtain ⟨_,_,below⟩ := pointers i inside
    rw [third,show image.esp+12+4*i = image.esp+4*(i+3) by omega]
    exact word (i+3) _ (by omega) (by omega) (by rw [if_neg (by omega),if_neg (by omega),if_neg (by omega),Nat.add_sub_cancel])
  · rw [third,show image.esp+12+4*argv.length = image.esp+4*(argv.length+3) by omega]
    refine word (argv.length+3) 0 (by omega) (by decide) ?_
    rw [if_neg (by omega),if_neg (by omega),if_neg (by omega),Nat.add_sub_cancel,List.getD_eq_getElem?_getD,
      List.getElem?_eq_none (by omega)]
    rfl
  · obtain ⟨string,low,below⟩ := pointers i inside
    rw [laid.pgdir]
    exact ⟨string,by omega,by omega,fun k bound order => pushed.apart begins order bound⟩
  · rw [laid.pgdir,top,show 4096*(g+2)/4096-1 = g+1 by omega]; exact laid.shown
  · rw [laid.pgdir,top,show 4096*(g+2)/4096-2 = g by omega]; exact laid.hidden

end Stack

section Exec
variable {L : Layout} {s : Machine} {o : Owners}

theorem execImage_stack (ok : Ok L s o) (idle : Idle o) (vacant : o.dirs .fresh = none)
    (unwrapped : ∀ j < f.phnum, (f.proghdr (w32 (f.phoff+32*j))).Unwrapped)
    (served : ¬ FirstRefused s o.free.length (FreshTable f.top)) (no_wrap : strings argv ≤ f.top) :
    Sat (execImage L cur f argv) s (fun _ _ => ¬ ∀ j < f.phnum, (f.proghdr (w32 (f.phoff+32*j))).Aligned)
      fun r next => ∀ image, r = some image → StackReads next.mem image argv ∧ stackUse argv ≤ 4096 := by
  have none_yet : ∀ {next : Machine} (image : Image), none = some image → StackReads next.mem image argv ∧ stackUse argv ≤ 4096 :=
    fun image no => (by cases no)
  rw [execImage_eq]
  refine execTo_rule ok idle vacant unwrapped (fun e next mapped why aligned => why ⟨mapped served,aligned⟩) none_yet
    (fun _ _ _ _ _ => none_yet) (fun _ _ _ _ _ => none_yet) (fun d top next mapped lost => absurd (mapped served) lost)
    fun d g now mid staged => ?_
  have top := staged.top
  have high := staged.ready.high
  refine (execArgs_spec staged.ready (fun _ _ no => no.elim) (fun arg member => ?_) (reaches_fits _ argv (by omega) (by omega))).mono
    (fun _ _ no => no.elim) ?_
  · have := strings_mem member; omega
  · rintro r next ⟨_,result⟩ image rfl
    exact result.2.2.reads high

end Exec
end Xv6.Vm
