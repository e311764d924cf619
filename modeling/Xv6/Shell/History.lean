import Xv6.Lib.Lines
import Xv6.Shell.Ulib

namespace Xv6.Shell
open Lines

-- sh.c: recordHistory and getHistory.

def hItems : Nat := 32
def hLen : Nat := 128
def bufSize : Nat := 256

-- history[i][j] is at 128*i+j; what lies behind the array follows it.
structure HistoryStruct where
  len : Int
  start : Int
  current : Int
  history : Nat → UInt8

-- The file is read to its end and written there.
def recordHistory (file commd : List UInt8) : List UInt8 := file ++ commd

def newlines (p : Nat) : List UInt8 → List Nat
  | [] => []
  | c :: cs => if c = 10 then p :: newlines (p+1) cs else newlines (p+1) cs

structure Reader where
  buf : List UInt8
  pre : List UInt8
  nums : Nat
  history : Nat → UInt8

def entry (nums : Nat) : Nat := hLen * (nums % hItems)

-- The memset before each copy clears H_ITEMS bytes.
def Reader.copy (s : Reader) (line : List UInt8) : Reader :=
  { s with nums := s.nums+1, history := strcpy (memset s.history (entry s.nums) hItems) (entry s.nums) line }

def Reader.copyFirst (s : Reader) (line : List UInt8) : Reader :=
  { s with nums := s.nums+1, history := strcat (memset s.history (entry s.nums) hItems) (entry s.nums) s.pre line }

-- The loop on the lines after the first: loc is locs[j-1].
def Reader.copyLines (mem : List UInt8) (s : Reader) (loc : Nat) : List Nat → Reader
  | [] => s
  | next :: locs => (s.copy (substring mem (loc+1) next)).copyLines mem next locs

-- One turn of the loop that reads, with the bytes that read put into buf. strlen and substring
-- go on behind buf, up to the next NUL. Without a newline in a full buffer, locs[-1] is read.
def Reader.turn (behind : List UInt8) (s : Reader) (chunk : List UInt8) : Option Reader :=
  let buf := chunk ++ s.buf.drop chunk.length
  let mem := buf ++ behind
  match newlines 0 (mem.takeWhile (· ≠ 0)) with
  | [] => if chunk.length = bufSize then none else some { s with buf := buf }
  | loc :: locs =>
    let s := ({ s with buf := buf }.copyFirst (substring mem 0 loc)).copyLines mem loc locs
    let last := (loc :: locs).getLastD 0
    if chunk.length = bufSize ∧ last < chunk.length - 1 then
      some { s with pre := (substring mem (last+1) chunk.length).takeWhile (· ≠ 0), buf := List.replicate bufSize 0 }
    else some s

-- The fuel is the length of the file.
def Reader.run (behind : List UInt8) : Nat → Reader → List UInt8 → Option Reader
  | 0,s,_ => some s
  | fuel+1,s,file =>
    if file = [] then some s
    else (s.turn behind (file.take bufSize)).bind fun s => Reader.run behind fuel s (file.drop bufSize)

-- buf and behind are what the stack holds in and behind buf.
def getHistory (buf behind : List UInt8) (file : List UInt8) (hs : HistoryStruct) : Option HistoryStruct :=
  (Reader.run behind file.length ⟨buf,[],0,hs.history⟩ file).map fun s =>
    let start : Int := Int.tmod ((s.nums : Int) - 1) hItems
    ⟨s.nums,start,start,s.history⟩

end Xv6.Shell
