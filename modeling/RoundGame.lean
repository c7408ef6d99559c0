import RoundGame.Base.TimerIds
import RoundGame.Base.TimerCancel
import RoundGame.World.Login
import RoundGame.Login.Account
import RoundGame.GameDb.LastError
import RoundGame.System.LoginWorld
import RoundGame.System.PlayerIds
import RoundGame.System.RoleCreation
import RoundGame.Base.Interactive
import RoundGame.Base.SaveMgr
import RoundGame.Base.SaveRun
import RoundGame.Lib.LuaContent
import RoundGame.World.SaveBlocks
import RoundGame.World.BlockOps
import RoundGame.World.Levels
import RoundGame.World.UseItem
import RoundGame.World.Bag
import RoundGame.World.LoadedBlocks
import RoundGame.World.DirtyFlags
import RoundGame.World.TimeRun
import RoundGame.Base.TimerKey
import RoundGame.Lib.LuaSpec
import RoundGame.War.CWar
import RoundGame.War.Rounds
import RoundGame.System.WarCommand
import RoundGame.Gate.HashId
import RoundGame.Lib.Framing
import RoundGame.Wire.Net
import RoundGame.Gate.DataBuffer
import RoundGame.Gate.ServiceGate
import RoundGame.Wire.Robot
import RoundGame.Gate.Reassembly
import RoundGame.Wire.ToServer
import RoundGame.Lib.Timers
import RoundGame.Lib.NestedTimers
import RoundGame.Lib.TimerQueue
import RoundGame.TimingWheel.Twheel
import RoundGame.TimingWheel.Placement
import RoundGame.TimingWheel.Refinement
import RoundGame.TimingWheel.Update
import RoundGame.Lib.Hex
import RoundGame.Wire.Mask
import RoundGame.Base.Formula
import RoundGame.Lib.Accum
import RoundGame.World.AttrBlock
import RoundGame.World.Skill
import RoundGame.War.Camp
import RoundGame.Lib.Loop
import RoundGame.War.BoutExecute
import RoundGame.War.BoutProcess
import RoundGame.System.WarTeardown
import RoundGame.Lib.Fields
import RoundGame.Base.Reload
import RoundGame.Base.ReloadMerge
import RoundGame.Base.ReloadUpdate
import RoundGame.Base.ReloadFail
import RoundGame.Base.ReloadUnshared
import RoundGame.Lib.FirstFree
import RoundGame.Lib.Text
import RoundGame.Shell.Defines
import RoundGame.Shell.ProcessProto
import RoundGame.Shell.SetProtoNum
import RoundGame.Shell.WriteToFile
import RoundGame.Shell.Regenerate
import RoundGame.Shell.NetFile
import RoundGame.Lib.Occur
import RoundGame.Base.StringOp
import RoundGame.World.PropChange
import RoundGame.Lib.Dfs
import RoundGame.Base.SaveMerge
import RoundGame.Lib.RoundRobin
import RoundGame.System.WarIds
import RoundGame.War.Warrior
import RoundGame.War.Perform
import RoundGame.Lib.Agenda
import RoundGame.Base.TableOp
import RoundGame.Base.SerializeChain
import RoundGame.Base.SerializeTree
import RoundGame.Lib.BinSearch
import RoundGame.Skynet.Handle
import RoundGame.Lib.Threads
import RoundGame.Skynet.MessageQueue
import RoundGame.Skynet.HandleName
import RoundGame.Skynet.Server
import RoundGame.Skynet.Account
import RoundGame.Skynet.ServerInv
import RoundGame.Skynet.ServerStep
import RoundGame.Skynet.ServerRun
import RoundGame.Lib.Reader
import RoundGame.Lib.LuaHeap
import RoundGame.Skynet.Seri
import RoundGame.Skynet.SeriUnpack
import RoundGame.Skynet.SeriRun
import RoundGame.Lib.Wheel
import RoundGame.Skynet.Timer
import RoundGame.Lib.Outbox
import RoundGame.Skynet.Socket
import RoundGame.Skynet.SocketInv
import RoundGame.Skynet.SocketStep
import RoundGame.Skynet.SocketServer
import RoundGame.Skynet.SocketServerInv
import RoundGame.Skynet.SocketClose
import RoundGame.Skynet.SocketRun
