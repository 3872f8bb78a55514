import BinaryMachine.Encoding

/-!
Programs: everything a machine is built from, in text form.
-/

namespace BinaryMachine

structure Program where
  name : String
  tape : String
  instructions : String
  initialId : StateId
  separator : String
  deriving DecidableEq, Repr

end BinaryMachine
