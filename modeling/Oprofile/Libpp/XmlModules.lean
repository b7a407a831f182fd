import Oprofile.Libpp.CountArray
import Oprofile.Libpp.ProcessTree

/-! Modules, threads, processes and binaries of the XML reports (`xml_utils.cpp`). -/
namespace Oprofile.Libpp

open SampleNames

/-- What a report reads of a symbol, its ids of names resolved by `get_image_name`. -/
structure ReportSymbol where
  appName : Text
  imageName : Text
  counts : CountArray
  deriving DecidableEq

/-- A `module_info`; an iterator is the symbol's place, and none the null one. -/
structure ModuleInfo where
  name : Text
  beginSym : Option Nat
  endSym : Option Nat
  summary : CountArray
  lo : Nat
  hi : Nat
  deriving DecidableEq

namespace ModuleInfo

def new : ModuleInfo := ⟨[], none, none, .empty, 0, 0⟩

def buildModule (m : ModuleInfo) (n : Text) (it l h : Nat) : ModuleInfo :=
  { m with name := n, beginSym := some it, lo := l, hi := h }

def addToSummary (m : ModuleInfo) (counts : CountArray) : ModuleInfo :=
  { m with
    summary := (List.range' m.lo (m.hi + 1 - m.lo)).foldl
      (fun summary pclass => summary.addAt (UInt32.ofNat pclass) (counts.get (UInt32.ofNat pclass))) m.summary }

def setBegin (m : ModuleInfo) (b : Nat) : ModuleInfo := if m.beginSym = none then { m with beginSym := some b } else m

def setEnd (m : ModuleInfo) (e : Nat) : ModuleInfo := if m.endSym = none then { m with endSym := some e } else m

def isClosed (m : ModuleInfo) (n : Text) : Bool := m.name = n ∧ m.endSym ≠ none

/-- The symbols that `output_symbols` writes. -/
def Lists (m : ModuleInfo) (k : Nat) : Prop := ∃ b e, m.beginSym = some b ∧ m.endSym = some e ∧ b ≤ k ∧ k < e

end ModuleInfo

/-- `my_modules[nr_modules - 1]` changed. -/
def modifyLast (f : ModuleInfo → ModuleInfo) (modules : List ModuleInfo) : List ModuleInfo :=
  modules.modify (modules.length - 1) f

/-- The name of `my_modules[nr_modules - 1]`, empty if there is none. -/
def lastName (modules : List ModuleInfo) : Text := (modules.getLast?.map ModuleInfo.name).getD []

/-- A thread of the tree with its modules. -/
structure ThreadModules where
  thread : ThreadInfo
  summary : CountArray
  modules : List ModuleInfo
  deriving DecidableEq

namespace ThreadModules

def buildThread (thread : ThreadInfo) : ThreadModules := ⟨thread, .empty, []⟩

def addModuleSymbol (t : ThreadModules) (n : Text) (it : Nat) (counts : CountArray) : ThreadModules :=
  { t with modules := t.modules ++ [(ModuleInfo.new.buildModule n it t.thread.lo t.thread.hi).addToSummary counts] }

/-- `thread_info::add_modules`. -/
def addModules (t : ThreadModules) (module : Text) (it : Nat) (counts : CountArray) : ThreadModules × Bool :=
  let oldName := lastName t.modules
  let t :=
    if t.modules ≠ [] ∧ oldName ≠ module then
      { t with modules := modifyLast (fun m => if ¬m.isClosed oldName then m.setEnd it else m) t.modules }
    else t
  if t.modules = [] ∨ module ≠ oldName then
    if hasSampleCounts counts t.thread.lo t.thread.hi then (t.addModuleSymbol module it counts, true) else (t, false)
  else ({ t with modules := modifyLast (·.addToSummary counts) t.modules }, false)

def setEnd (t : ThreadModules) (e : Nat) : ThreadModules := { t with modules := t.modules.map (·.setEnd e) }

/-- `add_to_summary` on a thread or a process, which are modules of their own. -/
def addRange (lo hi : Nat) (summary counts : CountArray) : CountArray :=
  ((⟨[], none, none, summary, lo, hi⟩ : ModuleInfo).addToSummary counts).summary

def summarize (t : ThreadModules) : ThreadModules :=
  { t with summary := t.modules.foldl (fun summary m => addRange t.thread.lo t.thread.hi summary m.summary) t.summary }

end ThreadModules

/-- A process of the tree with its threads and the name it gets. -/
structure ProcessModules where
  process : ProcessInfo
  name : Text
  summary : CountArray
  threads : List ThreadModules
  deriving DecidableEq

namespace ProcessModules

def buildProcess (process : ProcessInfo) : ProcessModules :=
  ⟨process, [], .empty, process.threads.map ThreadModules.buildThread⟩

/-- `process_info::add_modules`. -/
def addModules (p : ProcessModules) (module appName : Text) (it : Nat) (counts : CountArray) : ProcessModules :=
  let threads := p.threads.map fun t => t.addModules module it counts
  { p with
    threads := threads.map Prod.fst
    name := if threads.any Prod.snd ∧ p.name = [] then appName else p.name }

def setEnd (p : ProcessModules) (e : Nat) : ProcessModules := { p with threads := p.threads.map (·.setEnd e) }

def summarize (p : ProcessModules) : ProcessModules :=
  let threads := p.threads.map ThreadModules.summarize
  { p with
    threads := threads
    summary := threads.foldl
      (fun summary t => ThreadModules.addRange p.process.lo p.process.hi summary t.summary) p.summary }

end ProcessModules

/-- `summarize_processes` on the processes of a tree. -/
def summarizeProcesses (tree : List ProcessInfo) (symbols : List ReportSymbol) : List ProcessModules :=
  let processes := symbols.zipIdx.foldl
    (fun processes s => processes.map (·.addModules s.1.imageName s.1.appName s.2 s.1.counts))
    (tree.map ProcessModules.buildProcess)
  let processes := processes.map (·.setEnd symbols.length)
  processes.map (·.summarize)

/-- A `binary_info`: the module of its own symbols, and the others. -/
structure BinaryInfo where
  own : ModuleInfo
  modules : List ModuleInfo
  deriving DecidableEq

namespace BinaryInfo

def buildBinary (nrClasses : Nat) (n : Text) : BinaryInfo :=
  ⟨{ ModuleInfo.new with name := n, lo := 0, hi := nrClasses - 1 }, []⟩

def closeBinary (b : BinaryInfo) (it : Nat) : BinaryInfo :=
  ⟨b.own.setEnd it, modifyLast (·.setEnd it) b.modules⟩

/-- `add_module_symbol`; nothing when it takes the module before the first. -/
def addModuleSymbol (nrClasses : Nat) (b : BinaryInfo) (module app : Text) (it : Nat) (counts : CountArray) :
    Option BinaryInfo :=
  if module = app then
    some ⟨(b.own.setBegin it).addToSummary counts, modifyLast (·.setEnd it) b.modules⟩
  else
    let b :=
      if module ≠ lastName b.modules then
        { own := if b.own.beginSym ≠ none ∧ b.own.endSym = none then b.own.setEnd it else b.own
          modules := modifyLast (·.setEnd it) b.modules ++
            [ModuleInfo.new.buildModule module it 0 (nrClasses - 1)] : BinaryInfo }
      else b
    if b.modules = [] then none else some { b with modules := modifyLast (·.addToSummary counts) b.modules }

end BinaryInfo

/-- The binaries so far, the current one last, and its name. -/
structure BinaryRoot where
  binaries : List BinaryInfo
  currentBinaryName : Text
  deriving DecidableEq

/-- `add_binary`. -/
def addBinary (nrClasses : Nat) (binaries : List BinaryInfo) (n : Text) (it : Nat) : List BinaryInfo :=
  binaries.modify (binaries.length - 1) (·.closeBinary it) ++ [BinaryInfo.buildBinary nrClasses n]

/-- The loop of `summarize_binaries` on one symbol. -/
def summarizeBinary (nrClasses : Nat) (root : BinaryRoot) (s : ReportSymbol) (it : Nat) : Option BinaryRoot :=
  let root :=
    if s.appName ≠ root.currentBinaryName then ⟨addBinary nrClasses root.binaries s.appName it, s.appName⟩ else root
  match root.binaries.getLast? with
  | none => some root
  | some currentBinary =>
    (currentBinary.addModuleSymbol nrClasses s.imageName s.appName it s.counts).map fun b =>
      { root with binaries := root.binaries.dropLast ++ [b] }

/-- `summarize_binaries`. -/
def summarizeBinaries (nrClasses : Nat) (symbols : List ReportSymbol) : Option (List BinaryInfo) :=
  (symbols.zipIdx.foldlM (fun root s => summarizeBinary nrClasses root s.1 s.2) ⟨[], []⟩).map fun root =>
    root.binaries.modify (root.binaries.length - 1) (·.closeBinary symbols.length)

end Oprofile.Libpp
