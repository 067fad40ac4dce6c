import PaldOs.CoffReader
import PaldOs.PrivateMachines

/-! # From the compiler to the processor

A program comes out of the compiler as a COFF file.  `coff2noff` translates it, the kernel makes an
address space of the result and loads its pages when they are asked for, writes them to the
swap file and brings them back, and the processor executes it between those of other threads.

`coffFlat` is the program as the compiler has left it: alone on a machine whose memory holds the
sections of the COFF file at their addresses, and zeros.  Nothing above it knows of NOFF files, of
pages or of other threads.
-/
namespace PaldOs
namespace Workstation
open Machine

/-- The executables of a run come from COFF files that are linked for this kernel. -/
def AllCompiled (source : Executable → HostFile) (tr : List Event) : Prop :=
  ∀ h exe, .made h exe ∈ tr → MadeFrom (source exe) exe ∧ Linked (coffSections (source exe))

section Compiled
variable {source : Executable → HostFile} {tr : List Event}

theorem AllCompiled.append_left {after : List Event} (h : AllCompiled source (tr ++ after)) :
    AllCompiled source tr :=
  fun u exe hmem => h u exe (List.mem_append_left _ hmem)

end Compiled

section Runs
variable {data : ℤ → ℕ} {pageTable : ℕ → ℕ → TranslationEntry} {tlb : ℕ → TranslationEntry}
  {coreMap : ℕ → CoreMapEntry} {userRegisters : ℕ → Registers} {tr : List Event} {s : Workstation}
  {source : Executable → HostFile}

end Runs

end Workstation
end PaldOs
