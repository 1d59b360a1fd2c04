import AoOs.ArgvPage
import AoOs.ArpCache
import AoOs.CacheRecency
import AoOs.FatConsistent
import AoOs.FatEntryAccess
import AoOs.FatFailedCreate
import AoOs.FatReadExact
import AoOs.FatReturns
import AoOs.HandleRuns
import AoOs.HeapRuns
import AoOs.InstallerMount
import AoOs.Ipv4Text
import AoOs.Keyboard
import AoOs.LoadedImage
import AoOs.MoveFile
import AoOs.NetBounds
import AoOs.NetRing
import AoOs.RoundRobin
import AoOs.SleepTicks
import AoOs.SpaceRuns
import AoOs.SyscallStores
import AoOs.TreeRuns
import AoOs.UsableRam
import AoOs.UserStrings
