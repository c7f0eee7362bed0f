import Mathlib.Data.Nat.Digits.Defs
import Mathlib.Logic.Function.Basic
import ShardRaft.Lib.Grouping

/-!
# MapReduce: the tasks

`DoMap` and `DoReduce` of `mr/worker.go`, and `main` of `mrsequential.go`.  A Go string is a
sequence of bytes, compared byte by byte; a disk gives every file name the contents of the
file.  A function that may end in `log.Fatalf` or a panic returns an `Option`.

The temporary files have names nobody else uses and are gone after the renaming, so their
contents are local values here.

Two parts of the standard library are parameters.  `Json` is `encoding/json`: an encoder
appends values to a file, a decoder reads them back until the first error.  `Sorter` is
`sort.Sort(ByKey(kva))`, which may leave pairs with equal keys in any order.
-/

namespace ShardRaft.MR

open ShardRaft.Lib

/-- A Go string. -/
abbrev Bytes := List (Fin 256)

/-- The bytes of an ASCII text. -/
def ascii (s : String) : Bytes :=
  s.toList.map fun c => ⟨c.toNat % 256, Nat.mod_lt _ (by decide)⟩

/-- `s < t` of two strings: byte by byte, and a string is after its prefixes. -/
def less : Bytes → Bytes → Bool
  | _, [] => false
  | [], _ :: _ => true
  | a :: s, b :: t => decide (a.val < b.val) || (decide (a.val = b.val) && less s t)

/-- `KeyValue`. -/
structure KeyValue where
  key : Bytes
  value : Bytes
deriving DecidableEq, Repr

/-- `ihash`: FNV-1a on 32 bits, less the highest one. -/
def ihash (key : Bytes) : Nat :=
  let sum32 : UInt32 := key.foldl (fun h c => (h ^^^ UInt32.ofNat c.val) * 16777619) 2166136261
  (sum32 &&& 0x7fffffff).toNat

/-! ### Files -/

/-- The byte of a decimal digit. -/
def digit (d : Nat) : Fin 256 := ⟨(48 + d) % 256, Nat.mod_lt _ (by decide)⟩

/-- `%v` of an index. -/
def itoa (i : Nat) : Bytes :=
  if i = 0 then [digit 0] else (Nat.digits 10 i).reverse.map digit

/-- `GetIntermediateFileName`. -/
def getIntermediateFileName (mapInd reduceInd : Nat) : Bytes :=
  ascii "mr-" ++ itoa mapInd ++ ascii "-" ++ itoa reduceInd

/-- `GetOutputFileName`. -/
def getOutputFileName (reduceInd : Nat) : Bytes := ascii "mr-out-" ++ itoa reduceInd

/-- The files of the working directory. -/
abbrev Disk := Bytes → Option Bytes

/-- `encoding/json`, as it is used here. -/
structure Json where
  encode : KeyValue → Bytes
  decode : Bytes → List KeyValue

/-- What is encoded one after the other comes back. -/
def Json.RoundTrips (json : Json) (emitted : List KeyValue) : Prop :=
  ∀ kva : List KeyValue, (∀ kv ∈ kva, kv ∈ emitted) → json.decode (kva.flatMap json.encode) = kva

/-- `sort.Sort(ByKey(kva))`. -/
structure Sorter where
  sort : List KeyValue → List KeyValue
  perm : ∀ kva, (sort kva).Perm kva
  sorted : ∀ kva, (sort kva).Pairwise fun a b => less b.key a.key = false

/-- The program and the libraries it runs on. -/
structure Job where
  mapf : Bytes → Bytes → List KeyValue
  reducef : Bytes → List Bytes → Bytes
  json : Json
  sorter : Sorter

/-! ### The loop over the sorted pairs

`DoReduce` has it from `mrsequential.go`. -/

/-- The inner loop, `j` going up while the key is the same. -/
def scanKey (kva : List KeyValue) (key : Bytes) : Nat → Nat → Nat
  | 0, j => j
  | fuel + 1, j =>
    match kva[j]? with
    | none => j
    | some kv => if kv.key = key then scanKey kva key fuel (j + 1) else j

/-- The outer loop.  What it gives are the calls of `reducef` in their order: the key, and the
values of `kva[i]` to `kva[j-1]`. -/
def reduceLoop (kva : List KeyValue) : Nat → Nat → List (Bytes × List Bytes)
  | 0, _ => []
  | fuel + 1, i =>
    match kva[i]? with
    | none => []
    | some kv =>
      let j := scanKey kva kv.key kva.length (i + 1)
      (kv.key, ((kva.take j).drop i).map (·.value)) :: reduceLoop kva fuel j

/-- The calls of `reducef` for the pairs `kva`. -/
def reduceCalls (kva : List KeyValue) : List (Bytes × List Bytes) := reduceLoop kva kva.length 0

namespace Job

variable (job : Job)

/-- The line for one call, `"%v %v\n"`. -/
def line (call : Bytes × List Bytes) : Bytes :=
  call.1 ++ ascii " " ++ job.reducef call.1 call.2 ++ ascii "\n"

/-! ### The worker -/

/-- The loop of `DoMap` over the pairs: each goes to the encoder of its hash. -/
def encodeLoop (nReduce : Nat) : List KeyValue → List Bytes → Option (List Bytes)
  | [], encs => some encs
  | kv :: kva, encs => do
    let reduceInd := ihash kv.key % nReduce
    let enc ← encs[reduceInd]?
    encodeLoop nReduce kva (encs.set reduceInd (enc ++ job.json.encode kv))

/-- `DoMap` up to the renaming: the contents of the temporary files. -/
def mapFiles (disk : Disk) (fileName : Bytes) (nReduce : Nat) : Option (List Bytes) := do
  let content ← disk fileName
  let kva := job.mapf fileName content
  job.encodeLoop nReduce kva (List.replicate nReduce [])

/-- `DoMap` renames its `i`-th temporary file. -/
def rename (taskInd i : Nat) (file : Bytes) (disk : Disk) : Disk :=
  Function.update disk (getIntermediateFileName taskInd i) (some file)

@[simp] theorem rename_self (taskInd i : Nat) (file : Bytes) (disk : Disk) :
    rename taskInd i file disk (getIntermediateFileName taskInd i) = some file :=
  Function.update_self ..

theorem rename_other {taskInd i : Nat} {name : Bytes} (file : Bytes) (disk : Disk)
    (h : name ≠ getIntermediateFileName taskInd i) : rename taskInd i file disk name = disk name :=
  Function.update_of_ne h ..

/-- The loop of `DoMap` that renames the temporary files, from the `i`-th on. -/
def renameLoop (taskInd : Nat) : List Bytes → Nat → Disk → Disk
  | [], _, disk => disk
  | file :: files, i, disk => renameLoop taskInd files (i + 1) (rename taskInd i file disk)

/-- `DoMap`. -/
def doMap (disk : Disk) (taskInd : Nat) (fileName : Bytes) (nReduce : Nat) : Option Disk := do
  let files ← job.mapFiles disk fileName nReduce
  return renameLoop taskInd files 0 disk

/-- `DoReduce` reads the `i`-th intermediate file. -/
def readFile (disk : Disk) (taskInd : Nat) (kva : List KeyValue) (i : Nat) :
    Option (List KeyValue) := do
  let file ← disk (getIntermediateFileName i taskInd)
  return kva ++ job.json.decode file

/-- `DoReduce`, the loop over the intermediate files. -/
def readFiles (disk : Disk) (taskInd nMap : Nat) : Option (List KeyValue) :=
  (List.range nMap).foldlM (job.readFile disk taskInd) []

/-- The calls of `reducef` that `DoReduce` makes. -/
def doReduceCalls (disk : Disk) (taskInd nMap : Nat) : Option (List (Bytes × List Bytes)) := do
  let kva ← job.readFiles disk taskInd nMap
  return reduceCalls (job.sorter.sort kva)

/-- `DoReduce` renames the file it has written the lines to. -/
def output (taskInd : Nat) (calls : List (Bytes × List Bytes)) (disk : Disk) : Disk :=
  Function.update disk (getOutputFileName taskInd) (some (calls.flatMap job.line))

@[simp] theorem output_self (taskInd : Nat) (calls : List (Bytes × List Bytes)) (disk : Disk) :
    job.output taskInd calls disk (getOutputFileName taskInd) = some (calls.flatMap job.line) :=
  Function.update_self ..

theorem output_other {taskInd : Nat} {name : Bytes} (calls : List (Bytes × List Bytes))
    (disk : Disk) (h : name ≠ getOutputFileName taskInd) :
    job.output taskInd calls disk name = disk name :=
  Function.update_of_ne h ..

/-- `DoReduce`. -/
def doReduce (disk : Disk) (taskInd nMap : Nat) : Option Disk := do
  let calls ← job.doReduceCalls disk taskInd nMap
  return job.output taskInd calls disk

/-! ### The sequential program -/

/-- The loop over the input files. -/
def intermediate (disk : Disk) (files : List Bytes) : Option (List KeyValue) :=
  files.foldlM
    (fun kva filename => do
      let content ← disk filename
      return kva ++ job.mapf filename content)
    []

/-- The calls of `reducef` that `mrsequential` makes. -/
def mrsequentialCalls (disk : Disk) (files : List Bytes) :
    Option (List (Bytes × List Bytes)) := do
  let kva ← job.intermediate disk files
  return reduceCalls (job.sorter.sort kva)

/-- `main` of `mrsequential.go`, which wants at least one input file. -/
def mrsequential (disk : Disk) (files : List Bytes) : Option Disk :=
  if files = [] then none else do
    let calls ← job.mrsequentialCalls disk files
    return job.output 0 calls disk

end Job

end ShardRaft.MR
