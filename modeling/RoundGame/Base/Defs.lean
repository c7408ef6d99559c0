/-!
# Records that travel between the services

Player ids, socket ids and service addresses are Lua integers. `MRole` is the `role` table of a `LoginPlayer` message,
`Role` an entry of an account's role list.
-/

namespace RoundGame

abbrev Pid := Int
abbrev Fd := Int
abbrev Addr := Int

structure MRole where
  account : String
  addr : Addr
  fd : Fd
  port : Option Int
  deriving DecidableEq

structure Role where
  pid : Pid
  name : String
  icon : Int
  deriving DecidableEq

end RoundGame
