import Venom.Library.StateError
import Venom.Library.HashMap
import Venom.Library.MessagePack
import Venom.Library.NameTree
import Venom.Storage.NodeStore
import Venom.Storage.SlotRoundTrip
import Venom.Storage.MerkleBinding
import Venom.Storage.Allocator
import Venom.Container.SlotDecryption
import Venom.Crypto.KeyFile
import Venom.Rollback.Sharing
import Venom.Fs.Layout
import Venom.Fs.Deniability
import Venom.Fs.AccessList
import Venom.Fs.DamagedHeader
import Venom.Fs.HiddenFrame
import Venom.Fs.Generations
import Venom.Fs.MountedVolume
import Venom.Fs.HeaderCodec
import Venom.Fs.RecipientErrors
import Venom.Fs.NewTree
import Venom.Fs.WipedSlots
import Venom.Fs.SkippedRoot
import Venom.Fs.FailedCreate
import Venom.Fs.HiddenVolume
import Venom.Fuse.Driver
import Venom.Fuse.FlatFile
import Venom.Fuse.Sparse
import Venom.Fuse.Truncate
import Venom.Fuse.HeadSize
import Venom.Fuse.Rename
import Venom.Fuse.Unlink
import Venom.Fuse.Namespace
import Venom.Fuse.RenameTree
import Venom.Fuse.HoleReads
import Venom.Fuse.TruncatePaths
import Venom.Fuse.ChainCodec
import Venom.Fuse.ChainWalks
import Venom.Fuse.CacheBound
import Venom.Fuse.CacheRuns
import Venom.Fuse.FailedWrites
import Venom.Fuse.Released
import Venom.Fuse.InodeNumbers
import Venom.Fuse.InodeSteps
import Venom.Fuse.InodeLives
import Venom.Fuse.ListedChanges
import Venom.Fuse.Listing
import Venom.Fs.ClientRuns
import Venom.Fs.SavedCopies
import Venom.Fs.FlushRounds
import Venom.Fs.TamperedFiles
import Venom.Fs.Backups
import Venom.Fs.VolumeSessions
import Venom.Fuse.SlotOwners
import Venom.Fuse.Refusals
import Venom.Fuse.FullVolume
