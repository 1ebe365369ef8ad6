import NetBox.Parallel.PartSizes
import NetBox.Parallel.Delivery
import NetBox.Sftp.Status
import NetBox.Sftp.Polling
import NetBox.Sftp.Length
import NetBox.Sftp.Pipeline
import NetBox.Sftp.Gaps
import NetBox.Sftp.TextUpload
import NetBox.Terminal.CalculateSize
import NetBox.Terminal.Rollback
import NetBox.Scp.Location
import NetBox.Scp.Reporting
import NetBox.Scp.Move
import NetBox.Scp.Masks
import NetBox.Session.StoredSite
import NetBox.Session.SessionUrl
import NetBox.Session.Compare
import NetBox.Queue.Limit
import NetBox.Crypto.Scramble
import NetBox.Crypto.FileEncryption
import NetBox.Storage.KeyHistory
import NetBox.Scp.RestoreName
import NetBox.Base.AbsolutePath
import NetBox.Base.CommonPath
import NetBox.Command.PuttyParam
import NetBox.Remote.CommonProperties
import NetBox.Session.UniqueName
import NetBox.Base.StringList
import NetBox.Parallel.FileList
import NetBox.Session.UrlComponents
import NetBox.Command.CutToken
import NetBox.Base.PosEx
import NetBox.Calendar.Months
import NetBox.Ftp.YearGuess
import NetBox.Ftp.Eplf
import NetBox.Ftp.Mlsd
import NetBox.Base.CommaText
import NetBox.Session.AlgoList
import NetBox.Session.Folders
import NetBox.Masks.CaseVariants
import NetBox.Masks.EscapeMask
import NetBox.Masks.FileMasks
import NetBox.Parallel.PartName
import NetBox.Base.SpeedText
import NetBox.Crypto.Pbkdf2
import NetBox.Sftp.Attributes
import NetBox.Storage.IniNames
