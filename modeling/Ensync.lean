import Ensync.Bytes
import Ensync.BTreeMap
import Ensync.Io
import Ensync.BlockXfer
import Ensync.Fourleaf
import Ensync.Kdf
import Ensync.Crypt
import Ensync.KdfCodec
import Ensync.KeyMgmt.Edits
import Ensync.KeyMgmt.Run
import Ensync.KeyMgmt.Groups
import Ensync.KeyMgmt.Keys
import Ensync.KeyMgmt.Effects
import Ensync.KeyMgmt.Store
import Ensync.KeyMgmt.Tx
import Ensync.KeyMgmt.Interleave
import Ensync.KeyMgmt.InitKeys
import Ensync.Cipher.Cbc
import Ensync.Cipher.Stream
import Ensync.Cipher.Envelope
import Ensync.Cipher.DirVer
import Ensync.Config
