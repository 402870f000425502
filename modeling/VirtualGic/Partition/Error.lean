/-!
# Configuration errors

What can be wrong with a partition, with a set of them, or with running one.
-/
namespace VirtualGic

inductive ConfigError where
  | noVcpus (vm : Nat)
  | tooManyVcpus (vm count max : Nat)
  | invalidCpu (vm cpu : Nat)
  | cpuConflict (cpu first second : Nat)
  | interruptCount (vm count min max : Nat)
  | invalidPassthrough (vm id : Nat)
  | passthroughConflict (id first second : Nat)
  | vmIdOutOfRange (vm : Nat)
  | duplicateVm (vm : Nat)
  | notOnCpu (vm cpu : Nat)
deriving DecidableEq, Repr

def ConfigError.message : ConfigError → String
  | noVcpus vm => s!"VM {vm} has no vCPUs"
  | tooManyVcpus vm count max => s!"VM {vm} requests {count} vCPUs, at most {max} are supported"
  | invalidCpu vm cpu => s!"VM {vm} places a vCPU on physical CPU {cpu}, which does not exist"
  | cpuConflict cpu first second =>
    s!"physical CPU {cpu} is assigned to both VM {first} and VM {second}"
  | interruptCount vm count min max =>
    s!"VM {vm} requests {count} interrupts, supported range is {min}..={max}"
  | invalidPassthrough vm id => s!"VM {vm} cannot pass through interrupt {id}"
  | passthroughConflict id first second =>
    s!"physical interrupt {id} is assigned to both VM {first} and VM {second}"
  | vmIdOutOfRange vm => s!"VM id {vm} does not fit in a cross-core message"
  | duplicateVm vm => s!"VM id {vm} is used twice"
  | notOnCpu vm cpu => s!"physical CPU {cpu} runs no vCPU of VM {vm}"

end VirtualGic
