import Libogc.Tuxedo.PreemptiveRun
import Libogc.Tuxedo.RunState
import Libogc.Tuxedo.CondVar
import Libogc.Tuxedo.Mailbox
import Libogc.Tuxedo.Decrementer
import Libogc.Exi.ExtMask
import Libogc.Ipc.RequestRing
import Libogc.Si.Pending
import Libogc.Lwp.HeapDoubleFree
import Libogc.Lwp.HeapRequest
import Libogc.Card.Channel
import Libogc.Card.Listing
import Libogc.Card.Damaged
import Libogc.Card.WriteFile
import Libogc.Usb.StorageResult
import Libogc.Aesnd.StreamDelivery
import Libogc.Dvd.Completion
import Libogc.Dvd.Transfers
import Libogc.Console.TerminalBounds
import Libogc.Disc.RelativePath
import Libogc.Texture.TplRun
import Libogc.Aram.RequestRemoval
import Libogc.Ipc.IoctlvRelease
import Libogc.Tuxedo.OwnerChain
import Libogc.Tuxedo.YieldRotation
import Libogc.Si.Sync
import Libogc.Dsp.TaskOrder
import Libogc.Console.ColorBounds
import Libogc.Console.Layout
import Libogc.Exi.Transfer
import Libogc.Exi.Uart
import Libogc.Smb.ReadFile
import Libogc.Debug.HexCodec
import Libogc.Disc.DriveCache
import Libogc.Card.UnlockCipher
import Libogc.Wpad.Pending
