import MbBootTv.Lib.Bytes
import MbBootTv.Lib.CText
import MbBootTv.Lib.CrcRegister
import MbBootTv.Lib.Except
import MbBootTv.Lib.Memo
import MbBootTv.Lib.Reach
import MbBootTv.Lib.Region
import MbBootTv.Lib.OnesComplement
import MbBootTv.Lib.Ring
import MbBootTv.Disk
import MbBootTv.Strings
import MbBootTv.IsoStrings
import MbBootTv.TrackCache
import MbBootTv.Gpt.Crc
import MbBootTv.Gpt.Header
import MbBootTv.Gpt.Find
import MbBootTv.Gpt.Layout
import MbBootTv.Gpt.RoundTrip
import MbBootTv.Gpt.Bounds
import MbBootTv.Gpt.Window
import MbBootTv.Gpt.Fallback
import MbBootTv.Gpt.Burst
import MbBootTv.Ext2.Format
import MbBootTv.Ext2.Blocks
import MbBootTv.Ext2.Namei
import MbBootTv.Ext2.Files
import MbBootTv.Ext2.Cache
import MbBootTv.Ext2.Map
import MbBootTv.Ext2.ReadBlock
import MbBootTv.Ext2.ReadFile
import MbBootTv.Ext2.ReadErrors
import MbBootTv.Ext2.Slots
import MbBootTv.Ext2.Medium
import MbBootTv.Ext2.Mount
import MbBootTv.Ext2.Session
import MbBootTv.Ext2.Content
import MbBootTv.Ext2.Offsets
import MbBootTv.Ext2.Accounting
import MbBootTv.Ext2.DirScan
import MbBootTv.Ext2.Possible
import MbBootTv.Ext2.FormatMap
import MbBootTv.Ext2.Pages
import MbBootTv.Ext2.Search
import MbBootTv.Ext2.OnDisk
import MbBootTv.Ext2.Records
import MbBootTv.Ext2.Paths
import MbBootTv.Ext2.Walk
import MbBootTv.Ext2.Links
import MbBootTv.Boot.Config
import MbBootTv.Boot.ConfigMeaning
import MbBootTv.Boot.DiskFile
import MbBootTv.Boot.Agreement
import MbBootTv.Boot.Control
import MbBootTv.Boot.HandOff
import MbBootTv.Boot.ConfigLines
import MbBootTv.Ext2.ReadBytes
import MbBootTv.Boot.ImageBounds
import MbBootTv.Boot.WholeFile
import MbBootTv.Console.Vsprintf
import MbBootTv.Console.Font
import MbBootTv.Console.Printk
import MbBootTv.Console.Video
import MbBootTv.Boot.Prints
import MbBootTv.Boot.CommandLine
import MbBootTv.Boot.Sha1
import MbBootTv.Boot.GenHeader
import MbBootTv.Console.Screen
import MbBootTv.Console.Pieces
import MbBootTv.Ext2.OpenEnds
import MbBootTv.Ext2.Cycles
import MbBootTv.Ext2.Remap
import MbBootTv.Ext2.Grouped
import MbBootTv.Ext2.Tokens
import MbBootTv.Ext2.Untrusted
import MbBootTv.Net.Checksum
import MbBootTv.Net.Nic
import MbBootTv.Net.Rtl8139
import MbBootTv.Net.Udp
import MbBootTv.Net.Await
import MbBootTv.Net.Tftp
import MbBootTv.Net.TftpComplete
import MbBootTv.Net.TftpLost
import MbBootTv.Net.TftpTalk
import MbBootTv.Net.Dhcp
import MbBootTv.Net.Options
import MbBootTv.Net.Resolve
import MbBootTv.Net.Extension
import MbBootTv.Net.Lease
import MbBootTv.Net.Request
import MbBootTv.Net.Reply
import MbBootTv.Net.Exchange
