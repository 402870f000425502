import VirtualGic.Partition.Basic
import VirtualGic.Partition.Error
/-!
# Checking partitions

`Partition.fault?` finds what is wrong with one table, `faultAmong?` what is wrong
with a list of them.  The first fault in reading order is reported: within a table
its number, its CPUs, its size and its passthrough interrupts; between two tables
their numbers, their CPUs and their passthrough interrupts.
-/
namespace VirtualGic

namespace Partition

/-- The first bad CPU of a list, given the CPUs listed before it. -/
def cpuFault? (vm : Nat) : List Nat → List Nat → Option ConfigError
  | _, [] => none
  | seen, cpu :: rest =>
    if maxCpus ≤ cpu then some (.invalidCpu vm cpu)
    else if seen.contains cpu then some (.cpuConflict cpu vm vm)
    else cpuFault? vm (cpu :: seen) rest

/-- The first bad passthrough interrupt of a list, given those listed before it. -/
def passthroughFault? (vm interrupts : Nat) : List Nat → List Nat → Option ConfigError
  | _, [] => none
  | seen, id :: rest =>
    if id < privateInterrupts || interrupts ≤ id then some (.invalidPassthrough vm id)
    else if seen.contains id then some (.passthroughConflict id vm vm)
    else passthroughFault? vm interrupts (id :: seen) rest

/-- What is wrong with the number of interrupts. -/
def countFault? (p : Partition) : Option ConfigError :=
  if privateInterrupts ≤ p.interrupts ∧ p.interrupts ≤ maxInterrupts then none
  else some (.interruptCount p.id p.interrupts privateInterrupts maxInterrupts)

/-- What is wrong with a table on its own. -/
def fault? (p : Partition) : Option ConfigError :=
  if maxVmId < p.id then some (.vmIdOutOfRange p.id)
  else if p.cpus.isEmpty then some (.noVcpus p.id)
  else if maxCpus < p.cpus.length then some (.tooManyVcpus p.id p.cpus.length maxCpus)
  else
    (cpuFault? p.id [] p.cpus).or <|
      p.countFault?.or <| passthroughFault? p.id p.interrupts [] p.passthrough

def conflict? (first second : Partition) : Option ConfigError :=
  if first.id == second.id then some (.duplicateVm second.id)
  else
    ((second.cpus.find? first.cpus.contains).map (.cpuConflict · first.id second.id)).or <|
      (second.passthrough.find? first.passthrough.contains).map
        (.passthroughConflict · first.id second.id)

/-- What is wrong with a list of tables, given the tables before it in order. -/
def faultAfter? : List Partition → List Partition → Option ConfigError
  | _, [] => none
  | earlier, p :: rest =>
    p.fault?.or <| (earlier.findSome? (conflict? · p)).or <| faultAfter? (earlier ++ [p]) rest

end Partition

def faultAmong? (ps : List Partition) : Option ConfigError := Partition.faultAfter? [] ps

end VirtualGic
